import Declass.Proofs.Lowering.Comments
import Declass.Proofs.Lowering.Uses

/-!
# Qualifiers are dropped

Lowering leaves no `::` where each stands before a name, and neither after a `>` nor after a literal or a member
(`Lowering.qualifiers_dropped`). In `return ::E::C` the keyword is taken for a qualifier and goes, too.
-/

namespace Declass

open List Token

namespace Token

variable {ts us : List Token} {t : Token} {w : Text}

/-- No `::` is among the tokens. -/
def Unqualified (ts : List Token) : Prop :=
  ∀ t ∈ ts, t.isPunct "::" = false

theorem Unqualified.append (hts : Unqualified ts) (hus : Unqualified us) : Unqualified (ts ++ us) := fun t ht =>
  (mem_append.1 ht).elim (hts t) (hus t)

theorem Unqualified.cons (ht : t.isPunct "::" = false) (hts : Unqualified ts) : Unqualified (t :: ts) :=
  forall_mem_cons.2 ⟨ht, hts⟩

theorem unqualified_of_not_mem (h : ':' ∉ w) : Unqualified (significant (tokenize w)) := by
  intro t ht
  obtain ⟨u, hu, rfl⟩ := mem_map.1 ht
  rw [Bool.eq_false_iff]
  intro hp
  refine h ?_
  rw [← spelling_tokenize w]
  refine mem_flatMap.2 ⟨u, mem_of_mem_filter hu, ?_⟩
  have htx : u.text = "::" := (isPunct_iff.1 hp).2
  simp [htx]

theorem unqualified_of_lexed (h : Lexed true [t]) (ht : t.isPunct "::" = false) :
    Unqualified (significant (tokenize t.text)) := by
  have hspl : spelling [t] = t.text := by simp [spelling]
  rw [← hspl, significant_tokenize h]
  intro u hu
  obtain ⟨v, hv, rfl⟩ := mem_map.1 hu
  cases mem_singleton.1 (mem_of_mem_filter hv)
  exact ht

theorem unqualified_callTokens {f : Text} {receiver : Option Text} (hrv : ∀ r, receiver = some r → ':' ∉ r)
    (hts : Unqualified ts) : Unqualified (Lowering.callTokens f receiver ts) := by
  have hfst : Unqualified (receiver.elim [] fun r => significant (tokenize r)) := by
    cases receiver with
    | none => exact nofun
    | some r => exact unqualified_of_not_mem (hrv r rfl)
  refine .cons rfl (.cons (by decide) (((hfst.append ?_).append hts).append (.cons (by decide) nofun)))
  split
  · exact .cons (by decide) nofun
  · exact nofun

theorem Lexed.bare (h : Lexed true [t]) : Lexed true [t.bare] := by
  cases h with
  | cons c r ht hl h => exact .cons c r ht hl (.nil _)

theorem colon_not_mem_of_lexed (h : Lexed true [t]) (hid : t.isIdent) : ':' ∉ t.text := by
  have hmem : t.bare ∈ (tokenize (spelling [t])).map bare := by
    rw [Tidy.bare_tokenize h]
    exact mem_cons_self
  obtain ⟨u, hu, hb⟩ := mem_map.1 hmem
  obtain ⟨hk, htx⟩ : u.kind = t.kind ∧ u.text = t.text := by simpa [bare] using hb
  have hn := isName_of_isIdent hu (by rw [isIdent, hk]; exact hid)
  rw [htx] at hn
  intro hcol
  exact absurd (all_eq_true.1 (Bool.and_eq_true _ _ ▸ hn).2 _ hcol) (by decide)

end Token

namespace Fragment

variable {F : Fragment} {k i j : Nat} {p : Text} {t : Token}

/-- Each `::` is before a name, and not after `>`, a literal or a member. -/
structure Qualifies (F : Fragment) : Prop where
  next : ∀ k < F.size, F.isPunct k "::" = true → F.isIdent (k + 1) = true
  template : ∀ k < F.size, F.isPunct k ">" = true → F.isPunct (k + 1) "::" = false
  literal : ∀ k < F.size, (F.tok? k).any (·.isWordOf ["true", "false", "nullptr"]) = true → F.isPunct (k + 1) "::" = false
  member : ∀ k < F.size, F.isPunct k "." = true ∨ F.isPunct k "->" = true → F.isIdent (k + 1) = true →
    F.isPunct (k + 2) "::" = false

/-- No chain of names goes on from the token before position `k`. -/
def IsFresh (F : Fragment) (k : Nat) : Prop :=
  ∀ p, F.prev? k = some p → p.isPunct "::" = false ∧ (p.isIdent = true → F.isPunct k "::" = false)

theorem isFresh_of_isPunct (h : F.isPunct k p) (hp : p ≠ "::") : F.IsFresh (k + 1) := by
  obtain ⟨t, ht, hpun⟩ := Option.any_eq_true _ _ |>.1 h
  rw [isPunct_iff] at hpun
  intro u hu
  cases ht.symm.trans hu
  refine ⟨Bool.eq_false_iff.2 fun hcol => hp ?_, fun hid => by simp [Token.isIdent, hpun.1] at hid⟩
  exact hpun.2.symm.trans (isPunct_iff.1 hcol).2

theorem isPunct_of_close? (h : F.close? i = some j) : ∃ b : Bracket, F.isPunct j b.closing := by
  obtain ⟨b, t, n, -, -, hn, rfl⟩ := close?_eq_some_iff.1 h
  obtain ⟨-, c, hc, hcl⟩ := level_of_closeWithin hn
  rw [getElem?_drop, Nat.add_comm] at hc
  exact ⟨b, by rw [isPunct, tok?, hc]; exact closed?_eq_some_iff.1 hcl⟩

theorem closing_ne_colons (b : Bracket) : b.closing ≠ "::" := by
  cases b <;> decide

/-- The condition holds for the `n` tokens from `m` on, if no name follows. -/
theorem Qualifies.window {G : Fragment} {m n : Nat} (h : F.Qualifies)
    (htok : ∀ k, G.tok? k = if k < n then (F.tok? (m + k)).map bare else none) (hend : F.isIdent (m + n) = false) :
    G.Qualifies := by
  have hany (f : Token → Bool) (hf : ∀ t : Token, f t.bare = f t) (k : Nat) (hk : (G.tok? k).any f) :
      k < n ∧ m + k < F.size ∧ (F.tok? (m + k)).any f := by
    rw [htok] at hk
    split at hk
    next hlt =>
      obtain ⟨u, hu, hfu⟩ := Option.any_eq_true _ _ |>.1 hk
      obtain ⟨t, ht, rfl⟩ := Option.map_eq_some_iff.1 hu
      exact ⟨hlt, lt_size_of_tok? ht, by rw [ht, ← hfu, hf]; rfl⟩
    next => nomatch hk
  have hp (p : Text) := hany (·.isPunct p) fun _ => rfl
  have hcol {k : Nat} (hno : F.isPunct (m + k) "::" = false) : G.isPunct k "::" = false :=
    Bool.eq_false_iff.2 fun hk => Bool.eq_false_iff.1 hno (hp "::" k hk).2.2
  refine ⟨fun k _ hk => ?_, fun k _ hk => ?_, fun k _ hk => ?_, fun k _ hk hn => ?_⟩
  · obtain ⟨hlt, hsz, hk⟩ := hp "::" k hk
    have hnx := h.next _ hsz hk
    have hlt : k + 1 < n := by
      by_contra hge
      rw [show m + k + 1 = m + n by omega, hend] at hnx
      nomatch hnx
    obtain ⟨t, ht, hid⟩ := Option.any_eq_true _ _ |>.1 hnx
    rw [isIdent, htok, if_pos hlt, show m + (k + 1) = m + k + 1 from rfl, ht]
    exact hid
  · obtain ⟨-, hsz, hk⟩ := hp ">" k hk
    exact hcol (h.template _ hsz hk)
  · obtain ⟨-, hsz, hk⟩ := hany _ (fun _ => rfl) k hk
    exact hcol (h.literal _ hsz hk)
  · have hid := (hany Token.isIdent (fun _ => rfl) (k + 1) hn).2.2
    rcases hk with hk | hk
    · obtain ⟨-, hsz, hk⟩ := hp "." k hk
      exact hcol (h.member _ hsz (.inl hk) hid)
    · obtain ⟨-, hsz, hk⟩ := hp "->" k hk
      exact hcol (h.member _ hsz (.inr hk) hid)

/-- No `::` stands before a closing bracket. -/
theorem Qualifies.inside (h : F.Qualifies) (hcl : F.close? i = some j) : Qualifies { gaps := [], tokens := F.inside i j } := by
  have hij := lt_of_close? hcl
  refine h.window (m := i + 1) (n := j - i - 1) (fun k => ?_) ?_
  · rw [tok?, Fragment.inside, getElem?_map, getElem?_take, getElem?_drop]
    split <;> rfl
  · obtain ⟨b, hb⟩ := isPunct_of_close? hcl
    obtain ⟨t, ht, hp⟩ := Option.any_eq_true _ _ |>.1 hb
    rw [show i + 1 + (j - i - 1) = j by omega, Fragment.isIdent, ht]
    simp [Token.isIdent, (Token.isPunct_iff.1 hp).1]

/-- It does not matter where the tokens stand. -/
theorem Qualifies.significant {x : Text} (h : (ofText x).Qualifies) :
    Qualifies { gaps := [], tokens := significant (tokenize x) } := by
  refine h.window (m := 0) (n := (ofText x).size) (fun k => ?_) ?_
  · rw [tok?, ← tokens_map_bare, getElem?_map, Nat.zero_add]
    split
    · rfl
    next hge =>
      rw [getElem?_eq_none (Nat.le_of_not_lt hge)]
      rfl
  · have hno : (ofText x).tok? (0 + (ofText x).size) = none := getElem?_eq_none (Nat.le_add_left _ _)
    rw [isIdent, hno]
    rfl

theorem inside_length_lt (hcl : F.close? i = some j) : (F.inside i j).length < F.tokens.length := by
  have hlt : j < F.tokens.length := lt_size_of_close? hcl
  rw [inside, length_map, length_take]
  omega

theorem mem_of_mem_inside (h : t ∈ F.inside i j) : ∃ u ∈ F.tokens, u.bare = t := by
  obtain ⟨u, hu, hb⟩ := mem_map.1 h
  exact ⟨u, mem_of_mem_drop (mem_of_mem_take hu), hb⟩

end Fragment

namespace Lowering

open Fragment

variable {L : Lowering} {V : View} {k : Nat} {t : Token} {inner : List Var → List Token → List Token}

section

variable (hq : V.fragment.Qualifies) (hfresh : V.fragment.IsFresh k) (ht : V.fragment.tok? k = some t)

include hq hfresh ht

/-- A `::` at a fresh position starts a chain. -/
theorem not_isPunct_of_kept (hcol : t.isPunct "::" → (V.fragment.suffix k).isIdent 1 →
    ((V.fragment.prev? k).any fun p => p.isIdent || p.isPunct ">")) : t.isPunct "::" = false := by
  rw [Bool.eq_false_iff]
  intro hpun
  have hk : V.fragment.isPunct k "::" := by
    rw [Fragment.isPunct, ht]
    exact hpun
  obtain ⟨p, hp, hp'⟩ := Option.any_eq_true _ _ |>.1 (hcol hpun (by rw [isIdent_suffix]; exact hq.next k (lt_size_of_tok? ht) hk))
  rcases Bool.or_eq_true _ _ ▸ hp' with hid | hgreater
  · exact Bool.eq_false_iff.1 ((hfresh p hp).2 hid) hk
  · cases k with
    | zero => cases hp
    | succ k =>
      have hp : V.fragment.tok? k = some p := hp
      refine Bool.eq_false_iff.1 (hq.template k (lt_size_of_tok? hp) ?_) hk
      rw [Fragment.isPunct, hp]
      exact hgreater

/-- A name after which a chain goes on is not kept. -/
theorem not_colons_after_kept (hid : t.isIdent)
    (hn : (V.fragment.suffix k).isPunct 1 "::" → (V.fragment.prev? k).any (·.isPunctOf [".", "->", "::"])) :
    V.fragment.isPunct (k + 1) "::" = false := by
  rw [Bool.eq_false_iff]
  intro hnx
  obtain ⟨p, hp, hp'⟩ := Option.any_eq_true _ _ |>.1 (hn (by rw [isPunct_suffix]; exact hnx))
  cases k with
  | zero => nomatch hp
  | succ k =>
    have hpv : V.fragment.tok? k = some p := hp
    have hhere : V.fragment.isIdent (k + 1) := by
      rw [Fragment.isIdent, ht]
      exact hid
    have hmem (h : p.isPunct "." ∨ p.isPunct "->") : False :=
      Bool.eq_false_iff.1 (hq.member k (lt_size_of_tok? hpv) (by rwa [Fragment.isPunct, Fragment.isPunct, hpv]) hhere) hnx
    simp only [isPunctOf, any_cons, any_nil, Bool.or_false, Bool.or_eq_true] at hp'
    rcases hp' with hdot | harrow | hcol
    · exact hmem (.inl hdot)
    · exact hmem (.inr harrow)
    · exact Bool.eq_false_iff.1 (hfresh p hp).1 hcol

/-- The position after what a plan takes is fresh again. -/
theorem isFresh_next : V.fragment.IsFresh (k + (L.planAt V k t).size) := by
  have hpl := planned_planAt (L := L) ht
  generalize L.planAt V k t = P at hpl ⊢
  have hn {n : Nat} {u : Token} (hu : V.fragment.tok? n = some u) (hid : u.isIdent)
      (hnx : V.fragment.isPunct (n + 1) "::" = false) : V.fragment.IsFresh (n + 1) := by
    intro p hp
    cases hu.symm.trans hp
    exact ⟨Bool.eq_false_iff.2 fun h => by simp [Token.isIdent, (Token.isPunct_iff.1 h).1] at hid, fun _ => hnx⟩
  have hlit (hid : t.isIdent) (htx : t.text ∈ ["true".toList, "false", "nullptr"]) :
      V.fragment.isPunct (k + 1) "::" = false := by
    refine hq.literal k (lt_size_of_tok? ht) ?_
    rw [ht]
    exact any_eq_true.2 ⟨t.text, htx, by simp [isWord, hid]⟩
  have hg {i j : Nat} (h : (V.fragment.suffix k).close? i = some j) : V.fragment.IsFresh (k + (j + 1)) := by
    obtain ⟨b, hb⟩ := isPunct_of_close? h
    rw [isPunct_suffix] at hb
    exact isFresh_of_isPunct hb (closing_ne_colons b)
  cases hpl with
  | kept hk hcol =>
    cases hid : t.isIdent with
    | true => exact hn ht hid (not_colons_after_kept hq hfresh ht hid (hk hid))
    | false =>
      intro p hp
      cases ht.symm.trans hp
      exact ⟨not_isPunct_of_kept hq hfresh ht hcol, fun h => by simp [h] at hid⟩
  | digit hw hid htx => exact hn ht hid (hlit hid (by rcases htx with h | h <;> simp [h]))
  | word hw hid hnx =>
    refine hn ht hid (Bool.eq_false_iff.2 fun hcol => ?_)
    have htx := hnx (by rw [isPunct_suffix]; exact hcol)
    exact Bool.eq_false_iff.1 (hlit hid (by simp [htx])) hcol
  | @name u last hst hlk hu hid hnx =>
    rw [tok?_suffix] at hu
    simp only [isPunct_suffix, isIdent_suffix] at hnx
    refine hn hu hid (Bool.eq_false_iff.2 fun hcol => ?_)
    exact Bool.eq_false_iff.1 (hnx hcol) (hq.next _ (lt_size_of_isPunct hcol) hcol)
  | method hc => exact hg hc.closed
  | function hc => exact hg hc.closed
  | object _ _ _ _ _ hend =>
    rcases hend with ⟨hse, rfl⟩ | ⟨-, j, -, hse, rfl⟩
    · rw [isPunct_suffix] at hse
      exact isFresh_of_isPunct hse (by decide)
    · rw [isPunct_suffix] at hse
      exact isFresh_of_isPunct hse (by decide)

variable (hcut : ∀ u ∈ V.fragment.tokens, Lexed true [u])
  (hinner : ∀ i j visible, V.fragment.close? i = some j → Unqualified (inner visible (V.fragment.inside i j)))

include hcut hinner

/-- What a plan writes has no `::`, if that is so for its arguments. -/
theorem unqualified_tokens : Unqualified ((L.planAt V k t).tokens L inner V k) := by
  have hpl := planned_planAt (L := L) ht
  generalize L.planAt V k t = P at hpl ⊢
  have hs := hcut t (mem_of_getElem? ht)
  have ha {i j : Nat} (visible : List Var) (h : (V.fragment.suffix k).close? i = some j) :
      Unqualified (inner visible (V.fragment.inside (k + i) (k + j))) :=
    hinner _ _ visible (by rw [close?_suffix, h]; rfl)
  cases hpl with
  | kept hk hcs => exact unqualified_of_lexed hs (not_isPunct_of_kept hq hfresh ht hcs)
  | digit hw hid htx => rcases hw with rfl | rfl <;> exact unqualified_of_not_mem (by decide)
  | word hw hid hnx =>
    have hcol := colon_not_mem_of_lexed hs hid
    rcases hw with rfl | rfl | rfl
    · exact unqualified_of_not_mem (by decide)
    · exact unqualified_of_not_mem (by decide)
    · exact unqualified_of_not_mem (by simp [hcol])
  | name hst hlk hu hid hnx =>
    rw [tok?_suffix] at hu
    exact unqualified_of_not_mem (colon_not_mem_of_lexed (hcut _ (mem_of_getElem? hu)) hid)
  | @method f receiver u last j hca c hc hf hrv =>
    refine unqualified_callTokens (fun r hr => ?_) (ha _ hca.closed)
    obtain ⟨-, rfl⟩ : ¬f.isStatic ∧ receiver = r := by simpa using hr
    rcases hrv with rfl | ⟨hid, expr, hexpr, hrv⟩
    · decide
    · have hcol := colon_not_mem_of_lexed hs hid
      have hexpr : ':' ∉ expr := by rcases hexpr with rfl | rfl <;> simp [hcol]
      rcases hrv with rfl | rfl <;> simp [hexpr]
  | function hca hset => exact unqualified_callTokens nofun (ha _ hca.closed)
  | @object c u close _ _ _ hu huIdent hend =>
    rw [tok?_suffix] at hu
    have hcol := colon_not_mem_of_lexed (hcut u (mem_of_getElem? hu)) huIdent
    have hrv : ∀ r, some ('&' :: u.text) = some r → ':' ∉ r := by
      intro r hr
      cases hr
      simp [hcol]
    refine .append (.append (.cons rfl (.cons rfl (.cons (by decide) nofun))) ?_) (.cons (by decide) nofun)
    split
    · exact unqualified_callTokens hrv nofun
    next hne =>
      rcases hend with ⟨-, rfl⟩ | ⟨-, j, hcl, -, rfl⟩
      · exact absurd rfl hne
      · exact unqualified_callTokens hrv (ha _ hcl)

end

/-- From a fresh position on, no `::` is written. -/
theorem unqualified_tokensFrom (hq : V.fragment.Qualifies) (hcut : ∀ u ∈ V.fragment.tokens, Lexed true [u])
    (hinner : ∀ i j visible, V.fragment.close? i = some j → Unqualified (inner visible (V.fragment.inside i j)))
    (hfresh : V.fragment.IsFresh k) : Unqualified (tokensFrom L inner V k) := by
  fun_induction tokensFrom L inner V k with
  | case1 k hno => exact nofun
  | case2 k t ht ih =>
    have hpos := (plan_fits L ht rfl).1
    refine (unqualified_tokens hq hfresh ht hcut hinner).append (ih ?_)
    rw [Nat.max_eq_left (by rw [planAt]; omega)]
    exact isFresh_next hq hfresh ht

/-- Lowering to more levels than there are tokens leaves no `::`. -/
theorem unqualified_tokensToDepth {ts : List Token} (depth : Nat) (outer : List Var) (hdep : ts.length < depth)
    (hq : Qualifies { gaps := [], tokens := ts }) (hcut : ∀ u ∈ ts, Lexed true [u]) :
    Unqualified (tokensToDepth L depth outer ts) := by
  induction depth generalizing outer ts with
  | zero => nomatch hdep
  | succ depth ih =>
    refine unqualified_tokensFrom hq hcut (fun i j visible hcl => ?_) fun p hp => nomatch hp
    have hlt : ((View.ofTokens L.program.typeEnv outer ts).fragment.inside i j).length < ts.length := inside_length_lt hcl
    refine ih visible (by omega) (hq.inside hcl) fun u hu => ?_
    obtain ⟨v, hv, rfl⟩ := mem_of_mem_inside hu
    exact (hcut v hv).bare

/-- A chain of names starts with `t` at `k`, its first name `first` tokens behind. -/
def StartsChain (V : View) (k : Nat) (t : Token) (first : Nat) : Prop :=
  t.isIdent = true ∧ first = 0 ∧ t.text ∉ literals ∧ V.fragment.afterMemberAccess k = false ∧
      V.fragment.isPunct (k + 1) "::" = true ∨
    t.isPunct "::" = true ∧ first = 1 ∧ V.fragment.isIdent (k + 1) = true ∧
      ((V.fragment.prev? k).any fun p => p.isIdent || p.isPunct ">") = false

theorem StartsChain.planAt_eq {first : Nat} (h : StartsChain V k t first) :
    L.planAt V k t = L.qualifiedPlan (V.fragment.suffix k) first := by
  rcases h with ⟨hid, rfl, htx, hacc, hnx⟩ | ⟨hcol, rfl, hnx, hpv⟩
  · have hobj : L.objectPlan? (V.fragment.suffix k) = none := by
      obtain ⟨u, hu, hp⟩ := Option.any_eq_true _ _ |>.1 hnx
      refine objectPlan?_eq_none ?_
      rw [isIdent_suffix, Fragment.isIdent, hu]
      simp [Token.isIdent, (Token.isPunct_iff.1 hp).1]
    rw [planAt_of_isIdent hid htx, identifierPlan, hobj, hacc, isPunct_suffix, hnx]
    simp
  · rw [planAt, plan, if_pos hcol, isIdent_suffix, hnx, hpv]
    rfl

theorem qualifiedPlan_of_not_called {F : Fragment} {first last : Nat} {u : Token}
    (hl : first + 2 * qualifiedPairs (F.tokens.drop (first + 1)) = last) (hc : F.isPunct (last + 1) "(" = false)
    (hu : F.tok? last = some u) : L.qualifiedPlan F first = .text u.text (last + 1) := by
  subst hl
  simp only [qualifiedPlan, hc, text?, hu]
  rfl

/-- No `::` is left where each stands before a name and not after a `>`, a literal or a member. A chain of names that is not
called becomes its last name. -/
theorem qualifiers_dropped (L : Lowering) (hnames : HasNames L.program) (howner : ∀ c, L.owner = some c → c ∈ L.program.classes) :
    (∀ x, Clean L.program L.owner (tokenize x) → (ofText x).Qualifies → ∀ t ∈ tokenize (L.lower x), t.isPunct "::" = false) ∧
    ∀ V k t first, V.fragment.tok? k = some t → StartsChain V k t first →
      let last := first + 2 * qualifiedPairs (V.fragment.tokens.drop (k + first + 1))
      V.fragment.isPunct (k + last + 1) "(" = false →
        ∃ u, V.fragment.tok? (k + last) = some u ∧ u.isIdent = true ∧ L.planAt V k t = .text u.text (last + 1) := by
  constructor
  · intro x hclean hq t ht
    let d := max x.length (significant (tokenize x)).length + 1
    have hlower : L.lower x = toDepth L d [] x := toDepth_eq_of_lt (Nat.lt_succ_self _) (by omega)
    have hun := unqualified_tokensToDepth (L := L) d [] (by omega) hq.significant fun u hu => ?_
    · rw [Bool.eq_false_iff]
      intro hpunct
      rw [← significant_toDepth hclean hnames howner, ← hlower] at hun
      refine Bool.eq_false_iff.1 (hun t.bare (mem_map_of_mem (mem_filter.2 ⟨ht, ?_⟩))) hpunct
      simp [isTrivia, (Token.isPunct_iff.1 hpunct).1]
    · obtain ⟨v, hv, rfl⟩ := mem_map.1 hu
      obtain ⟨hmem, hsig⟩ := mem_filter.1 hv
      obtain ⟨us, rest, hsplit⟩ := append_of_mem hmem
      have hlexed := lexed_tokenizeFrom true 0 x
      rw [← tokenize, hsplit] at hlexed
      exact (hlexed.append_right.self (hclean.sound v hmem) (by simpa using hsig)).bare
  · intro V k t first ht hchain last hcall
    have hdrop : (V.fragment.suffix k).tokens.drop (first + 1) = V.fragment.tokens.drop (k + first + 1) := by
      rw [suffix, drop_drop, Nat.add_assoc]
    have hfirst : (V.fragment.suffix k).isIdent first = true := by
      rw [isIdent_suffix]
      rcases hchain with ⟨hident, rfl, -⟩ | ⟨-, rfl, hnext, -⟩
      · rw [Fragment.isIdent, Nat.add_zero, ht]
        exact hident
      · exact hnext
    obtain ⟨u, hu, hident, -⟩ := exists_last hfirst (hdrop ▸ rfl : _ = last)
    refine ⟨u, by rw [← tok?_suffix]; exact hu, hident, ?_⟩
    rw [hchain.planAt_eq, qualifiedPlan_of_not_called (hdrop ▸ rfl) (by rw [isPunct_suffix]; exact hcall) hu]

/-- A text with chains in an expression and in arguments. -/
def chainText : Text :=
  "n = ::E::C + hw::E::D; set(E::F);"

/-- The first chain of the text starts with `::`. -/
theorem qualifiers_dropped_sample :
    let V := View.ofText logLowering.program.typeEnv [] chainText
    (∀ t ∈ tokenize (logLowering.lower chainText), t.isPunct "::" = false) ∧
      ∃ u, V.fragment.tok? 5 = some u ∧ u.isIdent = true ∧ logLowering.planAt V 2 ⟨.punct, "::", 4⟩ = .text u.text 4 := by
  intro V
  obtain ⟨hnone, hchain⟩ := qualifiers_dropped logLowering
    ⟨by decide +kernel, by decide +kernel, by decide +kernel, by decide +kernel⟩ (by decide +kernel)
  have hclean : Clean logLowering.program logLowering.owner (tokenize chainText) :=
    ⟨by decide +kernel, by decide +kernel, by decide +kernel⟩
  refine ⟨hnone chainText hclean ⟨by decide +kernel, by decide +kernel, by decide +kernel, by decide +kernel⟩, ?_⟩
  have hpairs : qualifiedPairs (V.fragment.tokens.drop (2 + 1 + 1)) = 1 := by decide +kernel
  have hlast := hchain V 2 ⟨.punct, "::", 4⟩ 1 (by decide +kernel) (.inr (by decide +kernel))
  rw [hpairs] at hlast
  exact hlast (by decide +kernel)

/-- A keyword before a leading `::` is taken for a qualifier, and a literal is not. -/
theorem keyword_taken_for_qualifier :
    logLowering.lower "n = ::E::C;" = "n = C;" ∧ logLowering.lower "return ::E::C;" = "C;" ∧
      logLowering.lower "true::x" = "1::x" := by
  decide +kernel

end Lowering

end Declass
