import Declass.Proofs.Lowering.Locals

/-!
# Where a statement ends

A `;` or `}` is part of no name, declaration or call. So plans and block locals before it are not changed by what follows
(`GoesOn.plan_eq`, `GoesOn.blockLocalsFrom_eq`), but for an object whose declaration lacks only its `;`.
-/

namespace Declass

open List Token
open Option (any_eq_true bind_eq_bind bind_none bind_some)
open Declass.Bracket (closed? curly opened?)
open FoundLocal (at? canFollow isPart)
open Fragment (blockEnds blockLocalsFrom close?_suffix prev? size)

namespace Lowering

variable {us : List Token}

/-! ## Plans at the end of a statement -/

/-- The punctuation that ends a statement. -/
def statementEnds : List Text :=
  [";", "\x7d"]

theorem not_isPunct_of_end {t : Token} (h : t.isPunctOf statementEnds) {p : Text} (hp : p ∉ statementEnds) :
    t.isPunct p = false := by
  rw [Bool.eq_false_iff]
  intro hpun
  obtain ⟨q, hq, hq'⟩ := any_eq_true.1 h
  rw [isPunct_iff] at hpun hq'
  exact hp (hpun.2.symm.trans hq'.2 ▸ hq)

theorem not_isIdent_of_end {t : Token} (h : t.isPunctOf statementEnds) : t.isIdent = false := by
  obtain ⟨q, -, hq⟩ := any_eq_true.1 h
  rw [isPunct_iff] at hq
  simp [isIdent, hq.1]

theorem not_isPunctOf_of_end {t : Token} (h : t.isPunctOf statementEnds) {ps : List Text} (hps : ∀ p ∈ ps, p ∉ statementEnds) :
    t.isPunctOf ps = false := by
  rw [isPunctOf, any_eq_false]
  intro p hp
  rw [not_isPunct_of_end h (hps p hp)]
  exact Bool.false_ne_true

theorem isPunctOf_of_end {t : Token} (h : t.isPunctOf statementEnds) {ps : List Text} (hps : statementEnds ⊆ ps) :
    t.isPunctOf ps := by
  obtain ⟨p, hp, hpun⟩ := any_eq_true.1 h
  exact any_eq_true.2 ⟨p, hps hp, hpun⟩

/-- The last token of statements. -/
theorem exists_end {F : Fragment} (h : ∃ t, F.tokens.getLast? = some t ∧ t.isPunctOf statementEnds) :
    ∃ n e, F.size = n + 1 ∧ F.tok? n = some e ∧ e.isPunctOf statementEnds := by
  obtain ⟨e, he, hend⟩ := h
  have hpos := length_pos_of_mem (mem_of_getLast? he)
  rw [getLast?_eq_getElem?] at he
  refine ⟨F.tokens.length - 1, e, ?_, he, hend⟩
  rw [size]
  omega

/-- The tokens of `F` go on where a statement ends with those of `F₁`. -/
structure GoesOn (F₁ F : Fragment) : Prop where
  tokens : ∃ us, F.tokens = F₁.tokens ++ us
  last : ∃ t, F₁.tokens.getLast? = some t ∧ t.isPunctOf statementEnds = true
  close : ∀ i, i < F₁.size → F.close? i = F₁.close? i

variable {L : Lowering} {F₁ F : Fragment} {i j : Nat} {t : Token} {prev : Option Token} {types : Text → Option Text}

namespace GoesOn

section

variable (h : GoesOn F₁ F)

include h

section

variable (hi : i < F₁.size)

include hi

theorem tok? : F.tok? i = F₁.tok? i := by
  obtain ⟨us, hus⟩ := h.tokens
  rw [Fragment.tok?, Fragment.tok?, hus, getElem?_append_left hi]

theorem text? : F.text? i = F₁.text? i := by
  rw [Fragment.text?, Fragment.text?, h.tok? hi]

theorem isPunct (p : Text) : F.isPunct i p = F₁.isPunct i p := by
  rw [Fragment.isPunct, Fragment.isPunct, h.tok? hi]

theorem isIdent : F.isIdent i = F₁.isIdent i := by
  rw [Fragment.isIdent, Fragment.isIdent, h.tok? hi]

theorem ident? : F.ident? i = F₁.ident? i := by
  rw [Fragment.ident?, Fragment.ident?, h.tok? hi]

end

/-- Only the end of a statement stands at the end. -/
theorem succ_lt_size (ht : F₁.tok? i = some t) (hend : t.isPunctOf statementEnds = false) : i + 1 < F₁.size := by
  obtain ⟨n, e, hsize, he, hp⟩ := exists_end h.last
  refine lt_of_le_of_ne (Fragment.lt_size_of_tok? ht) ?_
  intro heq
  obtain rfl : n = i := by omega
  cases he.symm.trans ht
  rw [hp] at hend
  cases hend

theorem succ_lt_of_isIdent (hi : F₁.isIdent i) : i + 1 < F₁.size := by
  obtain ⟨t, ht, hid⟩ := any_eq_true _ _ |>.1 hi
  refine h.succ_lt_size ht (Bool.eq_false_iff.2 fun hend => ?_)
  rw [not_isIdent_of_end hend] at hid
  nomatch hid

theorem succ_lt_of_isPunct {p : Text} (hi : F₁.isPunct i p) (hp : p ∉ statementEnds) : i + 1 < F₁.size := by
  obtain ⟨t, ht, hpun⟩ := any_eq_true _ _ |>.1 hi
  refine h.succ_lt_size ht (Bool.eq_false_iff.2 fun hend => ?_)
  rw [not_isPunct_of_end hend hp] at hpun
  nomatch hpun

/-- From any position on, the tokens end where the statement ends. -/
theorem last_drop (hi : i < F₁.size) : ∃ e, (F₁.tokens.drop i).getLast? = some e ∧ e.isPunctOf statementEnds := by
  obtain ⟨e, he, hend⟩ := h.last
  have hle : ¬F₁.tokens.length ≤ i := Nat.not_le_of_lt hi
  exact ⟨e, by rw [getLast?_drop, if_neg hle, he], hend⟩

end

variable {k n : Nat} {ts : List Token} {e : Token} {d : FoundLocal}

theorem suffix (h : GoesOn F₁ F) (hk : k < F₁.size) : GoesOn (F₁.suffix k) (F.suffix k) where
  tokens := by
    obtain ⟨us, hus⟩ := h.tokens
    exact ⟨us, by rw [Fragment.suffix, Fragment.suffix, hus, drop_append_of_le_length (le_of_lt hk)]⟩
  last := h.last_drop hk
  close i hi := by
    have hlt : k + i < F₁.size := by
      have hlen : (F₁.suffix k).size = F₁.size - k := length_drop
      omega
    have hcl := h.close (k + i) hlt
    rw [close?_suffix, close?_suffix] at hcl
    exact Option.map_injective (fun a b hab => add_left_cancel hab) hcl

theorem qualifiedPairs_append {us : List Token} (hl : ts.getLast? = some e) (hend : e.isPunctOf statementEnds) :
    qualifiedPairs (ts ++ us) = qualifiedPairs ts := by
  induction ts using qualifiedPairs.induct with
  | case1 colons name ts hp ih =>
    rw [cons_append, cons_append, qualifiedPairs, qualifiedPairs, if_pos hp, if_pos hp]
    cases ts with
    | nil =>
      obtain rfl : name = e := by simpa using hl
      rw [not_isIdent_of_end hend, Bool.and_false] at hp
      cases hp
    | cons t ts => rw [ih (by simpa using hl)]
  | case2 colons name ts hp =>
    rw [cons_append, cons_append, qualifiedPairs, qualifiedPairs, if_neg hp, if_neg hp]
  | case3 ts hsh =>
    rcases ts with - | ⟨t, - | ⟨name, ts⟩⟩
    · cases hl
    · obtain rfl : t = e := by simpa using hl
      cases us with
      | nil => rfl
      | cons u us =>
        rw [cons_append, nil_append, qualifiedPairs, not_isPunct_of_end hend (by decide)]
        rfl
    · exact absurd rfl (hsh t name ts)

section

variable (h : GoesOn F₁ F)

include h

theorem qualifiedPlan_eq (hi : F₁.isIdent i) : L.qualifiedPlan F i = L.qualifiedPlan F₁ i := by
  obtain ⟨us, hus⟩ := h.tokens
  have hlt := h.succ_lt_of_isIdent hi
  obtain ⟨e, he, hend⟩ := h.last_drop hlt
  have hpr : qualifiedPairs (F.tokens.drop (i + 1)) = qualifiedPairs (F₁.tokens.drop (i + 1)) := by
    rw [hus, drop_append_of_le_length (le_of_lt hlt), qualifiedPairs_append he hend]
  unfold qualifiedPlan
  rw [hpr]
  generalize hl : i + 2 * qualifiedPairs (F₁.tokens.drop (i + 1)) = last
  obtain ⟨u, hu, hid, -⟩ := exists_last hi hl
  have hl' : last + 1 < F₁.size := h.succ_lt_of_isIdent (any_eq_true _ _ |>.2 ⟨u, hu, hid⟩)
  simp only [functionPlan?, h.text? (show last < F₁.size by omega), h.text? (show last - 2 < F₁.size by omega),
    h.isPunct hl', h.close _ hl']

theorem objectPlan?_eq (ht : F₁.isIdent 0)
    (hobj : ∀ c j, (F₁.text? 0).bind L.program.class? = some c → F₁.isIdent 1 → F₁.close? 2 = some j →
      j + 1 = F₁.size → F.isPunct (j + 1) ";" = false) : L.objectPlan? F = L.objectPlan? F₁ := by
  have hlt : 1 < F₁.size := h.succ_lt_of_isIdent ht
  have hidents : ∀ name, F₁.ident? 1 = some name → F₁.isIdent 1 := by
    intro name hn
    obtain ⟨u, hu, -⟩ := Option.map_eq_some_iff.1 hn
    obtain ⟨hu, hid⟩ := Option.filter_eq_some_iff.1 hu
    exact any_eq_true _ _ |>.2 ⟨u, hu, hid⟩
  simp only [objectPlan?, h.text? (show 0 < F₁.size by omega), h.ident? hlt, bind_eq_bind]
  cases htx : F₁.text? 0 with
  | none => rfl
  | some text =>
    cases hc : L.program.class? text with
    | none => simp only [bind_some, hc, bind_none]
    | some c =>
      cases hn : F₁.ident? 1 with
      | none => simp only [bind_none]
      | some name =>
        have hlt₂ : 2 < F₁.size := h.succ_lt_of_isIdent (hidents name hn)
        simp only [h.isPunct hlt₂, h.close 2 hlt₂]
        cases hcl : F₁.close? 2 with
        | none => rfl
        | some j =>
          have hse : F.isPunct (j + 1) ";" = F₁.isPunct (j + 1) ";" := by
            have hj := Fragment.lt_size_of_close? hcl
            rcases lt_or_eq_of_le (Nat.succ_le_of_lt hj) with hj' | hj'
            · exact h.isPunct hj' ";"
            · rw [hobj c j (by rw [htx]; exact hc) (hidents name hn) hcl hj', Fragment.isPunct, Fragment.tok?,
                getElem?_eq_none (le_of_eq hj'.symm)]
              rfl
          simp only [hse]

theorem objectCallPlan?_eq (hop : (F₁.isPunct 1 "." || F₁.isPunct 1 "->")) :
    L.objectCallPlan? types F = L.objectCallPlan? types F₁ := by
  have hlt : 2 < F₁.size := by
    rw [Bool.or_eq_true] at hop
    rcases hop with hp | hp
    · exact h.succ_lt_of_isPunct hp (by decide)
    · exact h.succ_lt_of_isPunct hp (by decide)
  simp only [objectCallPlan?, h.text? (show 0 < F₁.size by omega), h.text? (show 1 < F₁.size by omega), h.ident? hlt,
    bind_eq_bind]
  cases hn : F₁.ident? 2 with
  | none => simp only [bind_none]
  | some name =>
    have hlt₃ : 3 < F₁.size := by
      obtain ⟨u, hu, -⟩ := Option.map_eq_some_iff.1 hn
      obtain ⟨hu, hid⟩ := Option.filter_eq_some_iff.1 hu
      exact h.succ_lt_of_isIdent (any_eq_true _ _ |>.2 ⟨u, hu, hid⟩)
    simp only [h.isPunct hlt₃, h.close 3 hlt₃]

theorem callPlan?_eq (ho : F₁.isPunct 1 "(") : L.callPlan? types F = L.callPlan? types F₁ := by
  have hlt := h.succ_lt_of_isPunct ho (by decide)
  simp only [callPlan?, functionPlan?, h.text? (show 0 < F₁.size by omega), h.close 1 (by omega)]

/-- What follows a statement matters only to an object declared at its end. -/
theorem plan_eq (ht : F₁.tok? 0 = some t) (hobj : prev.all (·.isPunctOf [";", "\x7b", "\x7d", ":"]) → ∀ c j,
      (F₁.text? 0).bind L.program.class? = some c → F₁.isIdent 1 → F₁.close? 2 = some j →
        j + 1 = F₁.size → F.isPunct (j + 1) ";" = false) : L.plan types prev F t = L.plan types prev F₁ t := by
  unfold plan
  cases hcol : t.isPunct "::" with
  | true =>
    have hlt : 1 < F₁.size :=
      h.succ_lt_of_isPunct (any_eq_true _ _ |>.2 ⟨t, ht, hcol⟩) (by decide)
    cases hn : F₁.isIdent 1 with
    | false => simp only [h.isIdent hlt, hn, if_true, Bool.false_and, Bool.false_eq_true, if_false]
    | true => simp only [h.isIdent hlt, hn, if_true, h.qualifiedPlan_eq hn]
  | false =>
    cases hid : t.isIdent with
    | false => rfl
    | true =>
      have hfst : F₁.isIdent 0 := any_eq_true _ _ |>.2 ⟨t, ht, hid⟩
      have hlt : 1 < F₁.size := h.succ_lt_of_isIdent hfst
      have hobjectPlan : (if prev.all (·.isPunctOf [";", "\x7b", "\x7d", ":"]) then L.objectPlan? F else none) =
          if prev.all (·.isPunctOf [";", "\x7b", "\x7d", ":"]) then L.objectPlan? F₁ else none := by
        split
        · rename_i hst
          exact h.objectPlan?_eq hfst (hobj hst)
        · rfl
      have hobjectCall : (if F₁.isPunct 1 "." || F₁.isPunct 1 "->" then L.objectCallPlan? types F else none) =
          if F₁.isPunct 1 "." || F₁.isPunct 1 "->" then L.objectCallPlan? types F₁ else none := by
        split
        · rename_i hop
          exact h.objectCallPlan?_eq hop
        · rfl
      have hc : F₁.isPunct 1 "(" → L.callPlan? types F = L.callPlan? types F₁ := h.callPlan?_eq
      simp only [identifierPlan, hobjectPlan, h.isPunct hlt, h.qualifiedPlan_eq hfst, hobjectCall]
      cases ho : F₁.isPunct 1 "(" with
      | false => simp only [Bool.and_false, Bool.false_eq_true, if_false]
      | true => simp only [hc ho, Bool.false_eq_true, if_false]

end

/-! ## Locals at the end of a statement -/

theorem takeWhile_append_of_last (hl : ts.getLast? = some e) {p : Token → Bool} (hp : p e = false) (us : List Token) :
    (ts ++ us).takeWhile p = ts.takeWhile p ∧ (ts.takeWhile p).length < ts.length := by
  have hlt : (ts.takeWhile p).length < ts.length := by
    refine lt_of_le_of_ne ( takeWhile_prefix p).length_le fun heq => ?_
    have hall := takeWhile_eq_self_iff.1 (( takeWhile_prefix p).eq_of_length heq) e (mem_of_getLast? hl)
    rw [hp] at hall
    nomatch hall
  refine ⟨?_, hlt⟩
  rw [takeWhile_append, if_neg (ne_of_lt hlt)]

/-- A declaration is found before the end of the statement. -/
theorem at?_append {env : TypeEnv} (hl : ts.getLast? = some e) (hend : e.isPunctOf statementEnds)
    (us : List Token) : at? env (ts ++ us) = at? env ts := by
  have hw : e.isWordOf declWords = false := by
    simp [isWordOf, isWord, not_isIdent_of_end hend]
  have hpt : isPart e = false := by
    rw [isPart, not_isIdent_of_end hend, Bool.false_or, not_isPunctOf_of_end hend (by decide)]
  obtain ⟨hwords, hlt⟩ := takeWhile_append_of_last (p := (·.isWordOf declWords)) hl hw us
  have hd : (ts ++ us).drop (ts.takeWhile (·.isWordOf declWords)).length =
      ts.drop (ts.takeWhile (·.isWordOf declWords)).length ++ us := drop_append_of_le_length (le_of_lt hlt)
  have hl' : (ts.drop (ts.takeWhile (·.isWordOf declWords)).length).getLast? = some e := by
    rw [getLast?_drop, if_neg (Nat.not_le_of_lt hlt), hl]
  obtain ⟨hps, hlt'⟩ := takeWhile_append_of_last hl' hpt us
  have hnx : (ts ++ us)[(ts.takeWhile (·.isWordOf declWords)).length +
        ((ts.drop (ts.takeWhile (·.isWordOf declWords)).length).takeWhile isPart).length]? =
      ts[(ts.takeWhile (·.isWordOf declWords)).length +
        ((ts.drop (ts.takeWhile (·.isWordOf declWords)).length).takeWhile isPart).length]? := by
    rw [length_drop] at hlt'
    rw [getElem?_append_left (by omega)]
  unfold at?
  simp only [hwords, hd, hps, hnx]

/-- A declaration up to its name is names, `::`, `*` and `&`, and more follows. -/
theorem at?_spec {env : TypeEnv} (h : at? env ts = some d) :
    0 < d.size ∧ d.size < ts.length ∧ ∀ t ∈ ts.take d.size, t.isWordOf declWords ∨ isPart t := by
  unfold at? at h
  simp only [bind_eq_bind, Option.bind_eq_some_iff] at h
  obtain ⟨name, hn, next, hnx, _, -, first, -, _, -, _, -, hd⟩ := h
  cases hd
  have hpos : (ts.drop (ts.takeWhile (·.isWordOf declWords)).length).takeWhile isPart ≠ [] := by
    intro hnil
    rw [hnil] at hn
    nomatch hn
  refine ⟨?_, (List.getElem?_eq_some_iff.1 hnx).1, ?_⟩
  · have := length_pos_of_ne_nil hpos
    dsimp only
    omega
  · intro t ht
    rw [take_add, ← prefix_iff_eq_take.1 ( takeWhile_prefix _), ← prefix_iff_eq_take.1 ( takeWhile_prefix _)] at ht
    rcases mem_append.1 ht with ht | ht
    · exact .inl (mem_takeWhile_imp (p := fun t : Token => t.isWordOf declWords) ht)
    · exact .inr (mem_takeWhile_imp ht)

theorem level_of_plain {b : Bracket} (h : ∀ t ∈ ts, opened? t = none ∧ closed? t = none) : b.level n ts = some n := by
  induction ts with
  | nil => rfl
  | cons t ts ih =>
    obtain ⟨ho, hc⟩ := h t mem_cons_self
    rw [Bracket.level, ho, hc]
    exact ih fun u hu => h u (mem_cons_of_mem t hu)

theorem plain_of_isWordOf {ws : List Text} (h : t.isWordOf ws) : opened? t = none ∧ closed? t = none := by
  obtain ⟨w, -, hw⟩ := any_eq_true.1 h
  exact plain_of_isIdent (Bool.and_eq_true _ _ ▸ hw).1

theorem plain_of_isPart (h : isPart t) : opened? t = none ∧ closed? t = none := by
  rw [isPart, Bool.or_eq_true] at h
  rcases h with hid | hp
  · exact plain_of_isIdent hid
  · exact plain_of_isPunctOf hp (by decide)

/-- The blocks that are open are those of the curly brackets that are open. -/
theorem level_at? {env : TypeEnv} (h : at? env ts = some d) (b : Bracket) (n : Nat) : b.level n (ts.take d.size) = some n :=
  level_of_plain fun t ht => ((at?_spec h).2.2 t ht).elim plain_of_isWordOf plain_of_isPart

theorem localStop_of_block {F : Fragment} {e : Nat} {es : List Nat} {k : Nat}
    (hparen : (F.prev? k).any (·.isPunct "(") = false) : F.localStop (e :: es) k = e := by
  rw [Fragment.localStop]
  cases k with
  | zero => rfl
  | succ k =>
    have hp : F.isPunct (k + 1 - 1) "(" = false := hparen
    rw [hp]
    rfl

/-- The blocks that are open after one more token. -/
theorem blockEnds_spec {ends : List Nat} (hcl : t.isPunct "\x7b" → ∃ j, F.close? k = some j)
    (hen : ∀ e ∈ ends, e < F.size) (hlv : curly.level ends.length [t] = some n) :
    (F.blockEnds ends k t).length = n ∧ ∀ e ∈ F.blockEnds ends k t, e < F.size := by
  have hop : opened? t = some .curly ↔ t.isPunct "\x7b" := opened?_eq_some_iff
  have hclo : closed? t = some .curly ↔ t.isPunct "\x7d" := closed?_eq_some_iff
  rw [Bracket.level] at hlv
  unfold blockEnds
  split
  next ho =>
    obtain ⟨j, hj⟩ := hcl ho
    rw [if_pos (hop.2 ho)] at hlv
    cases hlv
    refine ⟨rfl, ?_⟩
    intro e he
    rw [hj] at he
    rcases mem_cons.1 he with rfl | he
    · exact Fragment.lt_size_of_close? hj
    · exact hen e he
  next ho =>
    rw [if_neg (mt hop.1 ho)] at hlv
    split
    next hc =>
      rw [if_pos (hclo.2 hc)] at hlv
      split at hlv
      · nomatch hlv
      · cases hlv
        exact ⟨length_tail, fun e he => hen e (mem_of_mem_tail he)⟩
    next hc =>
      rw [if_neg (mt hclo.1 hc)] at hlv
      cases hlv
      exact ⟨rfl, hen⟩

theorem drop_size {env : TypeEnv} (h : at? env (t :: ts) = some d) : ts.drop (d.size - 1) = (t :: ts).drop d.size := by
  have hpos := (at?_spec h).1
  obtain ⟨n, hn⟩ : ∃ n, d.size = n + 1 := ⟨d.size - 1, by omega⟩
  rw [hn]
  rfl

theorem tok?_of_drop (h : F.tokens.drop k = t :: ts) : k + (ts.length + 1) = F.size ∧ F.tok? k = some t := by
  constructor
  · have hlen := congrArg length h
    rw [length_drop, length_cons] at hlen
    rw [size]
    omega
  · have hh : (F.tokens.drop k)[0]? = F.tokens[k + 0]? := getElem?_drop
    rw [h] at hh
    exact hh.symm

/-- The locals from `k` on, if the statement before declares none outside a block. -/
theorem blockLocalsFrom_eq (h : GoesOn F₁ F) {env : TypeEnv} (hbal : curly.level 0 F₁.tokens = some 0)
    (hdecl : ∀ k d, (k = 0 ∨ (F₁.prev? k).any canFollow) → at? env (F₁.tokens.drop k) = some d →
        curly.level 0 (F₁.tokens.take k) ≠ some 0 ∧ (F₁.prev? k).any (·.isPunct "(") = false)
    (start : Bool) (ends : List Nat) {k : Nat} (hk : k ≤ F₁.size) (hst : start → k = 0 ∨ (F₁.prev? k).any canFollow)
    (hlv : curly.level 0 (F₁.tokens.take k) = some ends.length) (he : ∀ e ∈ ends, e < F₁.size)
    (hla : k = F₁.size → start) : F.blockLocalsFrom env start ends k (F₁.tokens.drop k ++ us) =
        F₁.blockLocalsFrom env start ends k (F₁.tokens.drop k) ++ F.blockLocalsFrom env true [] F₁.size us ∧
      ∀ l ∈ F₁.blockLocalsFrom env start ends k (F₁.tokens.drop k), l.stop < F₁.size := by
  generalize hts : F₁.tokens.drop k = ts
  induction start, ends, k, ts using Fragment.blockLocalsFrom.induct F₁ env with
  | case1 start ends k =>
    have hsize : k = F₁.size := le_antisymm hk (drop_eq_nil_iff.1 hts)
    rw [hsize, size, take_length, hbal, Option.some.injEq] at hlv
    obtain rfl : ends = [] := length_eq_zero_iff.1 hlv.symm
    rw [hla hsize, hsize, blockLocalsFrom]
    exact ⟨rfl, forall_mem_nil _⟩
  | case2 start ends k t ts d hd ih =>
    rw [dite_eq_ite] at hd
    obtain ⟨rfl, hd'⟩ := Option.ite_none_right_eq_some.1 hd
    obtain ⟨hpos, hlt, -⟩ := at?_spec hd'
    obtain ⟨hdep, hparen⟩ := hdecl k d (hst rfl) (hts ▸ hd')
    obtain ⟨e, es, rfl⟩ : ∃ e es, ends = e :: es := by
      cases ends with
      | nil => exact absurd hlv hdep
      | cons e es => exact ⟨e, es, rfl⟩
    obtain ⟨hsize, -⟩ := tok?_of_drop hts
    have hdr : F₁.tokens.drop (k + d.size) = ts.drop (d.size - 1) := by rw [← drop_drop, hts, drop_size hd']
    have htk : F₁.tokens.take (k + d.size) = F₁.tokens.take k ++ (t :: ts).take d.size := by
      rw [take_add, hts]
    obtain ⟨last, hgetLast, hend⟩ := h.last_drop (i := k) (by omega)
    rw [hts] at hgetLast
    have hdF : (if true then at? env (t :: (ts ++ us)) else none) = some d := by
      rw [← cons_append, at?_append hgetLast hend, if_pos rfl, hd']
    have hparenF : (F.prev? k).any (·.isPunct "(") = false := by
      rw [← hparen]
      cases k with
      | zero => rfl
      | succ k => rw [prev?, prev?, h.tok? (by omega)]
    rw [length_cons] at hlt
    obtain ⟨heq, hstp⟩ := ih (by omega) (absurd · Bool.false_ne_true) (by rw [htk, level_append, hlv, bind_some, level_at? hd'])
      he (by omega) hdr
    rw [cons_append, Fragment.blockLocalsFrom_of_some hdF, Fragment.blockLocalsFrom_of_some hd,
      localStop_of_block hparenF, localStop_of_block hparen, drop_append_of_le_length (by omega), heq]
    refine ⟨rfl, ?_⟩
    intro l hl
    rcases mem_cons.1 hl with rfl | hl
    · exact he e mem_cons_self
    · exact hstp l hl
  | case3 start ends k t ts hno ih =>
    rw [dite_eq_ite] at hno
    obtain ⟨hsize, ht⟩ := tok?_of_drop hts
    have hdr : F₁.tokens.drop (k + 1) = ts := by rw [← drop_drop, hts, drop_succ_cons, drop_zero]
    have htk : F₁.tokens.take (k + 1) = F₁.tokens.take k ++ [t] := by rw [take_add, hts]; rfl
    obtain ⟨last, hgetLast, hend⟩ := h.last_drop (i := k) (by omega)
    rw [hts] at hgetLast
    have hnoneF : (if start then at? env (t :: (ts ++ us)) else none) = none := by
      rw [← cons_append, at?_append hgetLast hend, hno]
    have hcl : t.isPunct "\x7b" → ∃ j, F₁.close? k = some j := fun ho =>
      Fragment.exists_close? hbal ht (opened?_eq_some_iff.2 ho)
    have hblk : F.blockEnds ends k t = F₁.blockEnds ends k t := by
      unfold blockEnds
      split
      · rename_i ho
        obtain ⟨j, hj⟩ := hcl ho
        rw [h.close k (by omega), hj]
        rfl
      · rfl
    obtain ⟨n, hn⟩ : ∃ n, curly.level ends.length [t] = some n := by
      have hall := hbal
      rw [← take_append_drop (k + 1) F₁.tokens, level_append, htk, level_append, hlv] at hall
      obtain ⟨n, hn, -⟩ := Option.bind_eq_some_iff.1 hall
      exact ⟨n, hn⟩
    obtain ⟨hlen, he'⟩ := blockEnds_spec hcl he hn
    have hfollows : k + 1 = F₁.size → canFollow t := by
      intro hk'
      obtain rfl : ts = [] := length_eq_zero_iff.1 (by omega)
      cases hgetLast
      exact isPunctOf_of_end hend (by decide)
    obtain ⟨heq, hstp⟩ := ih (by omega) (fun hfol => .inr (by rw [prev?, ht]; exact hfol))
      (by rw [htk, level_append, hlv, bind_some, hn, hlen]) he' hfollows hdr
    rw [cons_append, Fragment.blockLocalsFrom_of_none hnoneF, Fragment.blockLocalsFrom_of_none hno, hblk]
    exact ⟨heq, hstp⟩

end GoesOn

end Lowering

/-! ## Locals further on -/

/-- The local, `n` positions further on. -/
def BlockLocal.shift (n : Nat) (l : BlockLocal) : BlockLocal :=
  { l with first := n + l.first, stop := n + l.stop }

namespace Fragment

variable {F₂ F : Fragment} {n k : Nat} (h : (F.suffix n).tokens = F₂.tokens)
include h

theorem isPunct_add (i : Nat) (p : Text) : F.isPunct (n + i) p = F₂.isPunct i p := by
  rw [← isPunct_suffix, isPunct, isPunct, tok?, tok?, h]

theorem close?_add (i : Nat) : F.close? (n + i) = (F₂.close? i).map (n + ·) := by
  rw [close?_suffix, close?, close?, h]

theorem findPunct?_add (ps : List Text) (i : Nat) : F.findPunct? ps (n + i) = (F₂.findPunct? ps i).map (n + ·) := by
  have hd : F.tokens.drop (n + i) = F₂.tokens.drop i := by rw [← h, suffix, drop_drop]
  have hadd : ∀ m : Nat, m + (n + i) = n + (m + i) := by omega
  simp only [findPunct?, hd, Option.map_map, Function.comp_def, hadd]

theorem statementEnd?_add (i : Nat) : F.statementEnd? (n + i) = (F₂.statementEnd? i).map (n + ·) := by
  simp only [statementEnd?, close?_add h, bind_eq_bind]
  cases F₂.close? i with
  | none => rfl
  | some j =>
    simp only [Option.map_some, bind_some, add_assoc, isPunct_add h, close?_add h, findPunct?_add h]
    split <;> simp only [Option.map_map, Function.comp_def, add_assoc]

variable (hsize : F.size = n + F₂.size) (hpos : 0 < n) (hparen : F.isPunct (n - 1) "(" = false) (ends : List Nat)
include hsize

theorem getD_close?_add (i : Nat) : (F.close? (n + i)).getD F.size = n + (F₂.close? i).getD F₂.size := by
  rw [close?_add h, hsize]
  cases F₂.close? i <;> rfl

theorem blockEnds_add (t : Token) : F.blockEnds (ends.map (n + ·)) (n + k) t = (F₂.blockEnds ends k t).map (n + ·) := by
  unfold blockEnds
  split
  · rw [getD_close?_add h hsize, map_cons]
  · split
    · rw [map_tail]
    · rfl

include hpos hparen

theorem localStop_add : F.localStop (ends.map (n + ·)) (n + k) = n + F₂.localStop ends k := by
  have hblk : (ends.map (n + ·)).head?.getD F.size = n + ends.head?.getD F₂.size := by
    cases ends with
    | nil => exact hsize
    | cons e es => rfl
  cases k with
  | zero =>
    simp only [localStop, add_zero, hparen, Bool.and_false, Bool.false_eq_true, if_false, lt_irrefl, decide_false,
      Bool.false_and, hblk]
  | succ k =>
    have hsub : n + (k + 1) - 1 = n + k := by omega
    have hpos' : (0 < n + (k + 1)) = (0 < k + 1) := by simp
    simp only [localStop, hsub, hpos', Nat.add_sub_cancel, isPunct_add h, statementEnd?_add h, hblk]
    split
    · cases F₂.statementEnd? k <;> rfl
    · rfl

/-- The locals that tokens declare further on. -/
theorem blockLocalsFrom_add {env : TypeEnv} {start : Bool} {ts : List Token} :
    F.blockLocalsFrom env start (ends.map (n + ·)) (n + k) ts =
      (F₂.blockLocalsFrom env start ends k ts).map (BlockLocal.shift n) := by
  induction start, ends, k, ts using blockLocalsFrom.induct F₂ env with
  | case1 start ends k =>
    rw [blockLocalsFrom, blockLocalsFrom]
    rfl
  | case2 start ends k t ts d hd ih =>
    have hpos' := (Lowering.GoesOn.at?_spec (Option.ite_none_right_eq_some.1 hd).2).1
    have hfst : n + k + d.size - 1 = n + (k + d.size - 1) := by omega
    rw [blockLocalsFrom_of_some hd, blockLocalsFrom_of_some hd, localStop_add h hsize hpos hparen, add_assoc,
      ih, ← add_assoc, hfst]
    rfl
  | case3 start ends k t ts hno ih =>
    rw [blockLocalsFrom_of_none hno, blockLocalsFrom_of_none hno, blockEnds_add h hsize, add_assoc, ih]

end Fragment

end Declass
