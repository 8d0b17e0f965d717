import Declass.Proofs.Lowering.Written

/-!
# Lowered bodies

The loop over the tokens of a text leads from one stage to the next (`Reads.exists_pieces`), and arguments are lowered by induction
on the depth of nesting (`lowersTokens_toDepth`). Main statement: `exists_toDepth`.
-/

namespace Declass

open Token Scan

namespace Lowering

open Fragment

/-! ## The loop -/

variable {L : Lowering} {inner : List Var → Text → Text} {tokens : List Var → List Token → List Token} {lineStart : Bool}
  {x : Text} {V : View} {k : Nat} {done us todo : List Token} {t : Token}

theorem significant_assign (ht : t.isPunct "=") : significant (tokenize t.text) = [t.bare] := by
  rw [isPunct_iff] at ht
  have hb : t.bare = ofMark "=" := by rw [bare, ht.1, ht.2]; rfl
  rw [hb, ht.2]
  decide +kernel

/-- From a stage on, the loop writes the code of the remaining tokens. -/
theorem Reads.exists_pieces (h : Reads L inner tokens x V) {gap out : Text}
    (hreach : Reached lineStart (tokenize x) k done us todo) (hout : out ++ gap = Token.spelling us) :
    ∃ zs, Token.spelling zs = (pieces L inner V k gap).foldl emit out ∧ Stands lineStart (tokenize x) zs ∧
      (Clean L.program L.owner (tokenize x) → Token.significant zs = Token.significant us ++ tokensFrom L tokens V k) := by
  induction k, gap using pieces.induct L inner V generalizing done us todo out with
  | case1 k gap hno =>
    rw [pieces_of_none hno, tokensFrom_of_none hno, List.append_nil]
    rw [h.fragment] at hno
    have hnil := hreach.place.todo_eq_nil hno
    subst hnil
    exact ⟨us, hout.symm, hreach.stands, fun _ => rfl⟩
  | case2 k gap t ht hasg ih =>
    have hp : t.isPunct "=" := by
      simp only [View.isAssignment, Fragment.isPunct, ht, Bool.and_eq_true] at hasg
      exact hasg.1.1
    obtain ⟨hki, htx⟩ := isPunct_iff.1 hp
    rw [pieces_of_isAssignment ht hasg, tokensFrom_of_some ht, planAt_of_kind hki (by rw [htx]; decide), h.fragment]
    rw [h.fragment] at ht ih
    obtain ⟨run, gs, todo', rfl, hcnt, hsig, hgs, hh, hgap⟩ := hreach.place.exists_run (n := 0) ht
    obtain ⟨rfl, -⟩ := hreach.place.eq_of_one ht hcnt
    have hstg := hreach.stage (by rw [isGlue, hki, htx]; rfl)
    obtain ⟨us', hreach', hspl, hc⟩ := hstg.assign h.steady.whole hp hgs hh
    have hout' : emit (emit out (.text gap)) .assign ++ ((ofText x).gap (k + 1)).dropWhile isSpaceOrTab =
        spelling us' := by
      rw [hspl, hgap, emit, emit, hout]
    obtain ⟨zs, hzs, hst, hsigs⟩ := ih hreach' hout'
    refine ⟨zs, hzs, hst, fun hcln => ?_⟩
    rw [hsigs hcln, hc, Plan.tokens, significant_assign hp]
    simp [Plan.size]
  | case3 k gap t ht hasg =>
    rename_i next ih
    have hpl : token L inner V k t = (L.planAt V k t).lowered L inner V k := token_eq t
    obtain ⟨hpos, hfits, -⟩ := plan_fits L ht (P := L.planAt V k t) rfl
    obtain ⟨n, hn⟩ := Nat.exists_eq_succ_of_ne_zero (ne_of_gt hpos)
    have hnx : max (token L inner V k t).next (k + 1) = k + n + 1 := by
      rw [hpl]
      simp only [Plan.lowered]
      omega
    have hmax : max (k + (L.planAt V k t).size) (k + 1) = k + n + 1 := by
      omega
    rw [pieces_of_tok? ht hasg hnx, tokensFrom_of_some ht, hmax, hpl]
    have hnx' : next = k + n + 1 := hnx
    rw [hnx', h.fragment] at ih
    have hplanned : Planned L ((ofText x).prev? k) ((ofText x).suffix k) t (L.planAt V k t) := by
      rw [← h.fragment]
      exact planned_planAt ht
    rw [h.fragment] at ht hfits ⊢
    obtain ⟨e, he⟩ : ∃ e, (ofText x).tok? (k + n) = some e := by
      have hlt : k + n < (ofText x).tokens.length := lt_of_lt_of_le (by omega) hfits
      exact ⟨_, List.getElem?_eq_getElem hlt⟩
    obtain ⟨run, gs, todo', rfl, hcnt, hsig, hgs, hh, hgap⟩ := hreach.place.exists_run he
    obtain ⟨us', hreach', hspl, hcode⟩ : ∃ us', Reached lineStart (tokenize x) (k + n + 1) (done ++ run ++ e :: gs) us' todo' ∧
        spelling us' = spelling us ++ ((L.planAt V k t).lowered L inner V k).text ++ spelling gs ∧
        (Clean L.program L.owner (tokenize x) →
          significant us' = significant us ++ (L.planAt V k t).tokens L tokens V k) := by
      obtain ⟨rest', htodo⟩ := hreach.place.todo_eq ht
      cases hgl : t.isGlue with
      | true =>
        have hmem : t ∈ tokenize x := by rw [hreach.place.split, htodo]; simp
        have hlex := lexed_tokenizeFrom true 0 x
        have hbl := hlex.isBlank_of_isGlue hmem hgl
        have hcode : t.isTrivia = false := hreach.place.head t (by rw [htodo]; rfl)
        have hki : t.kind = .punct :=
          (hlex.kind_of_isBlank hmem hbl).resolve_left (kind_ne_of_not_isTrivia hcode).1 |>.1
        have hplan : L.planAt V k t = .text t.text 1 := by
          refine planAt_of_kind hki fun htx => ?_
          rw [isBlank, htx] at hbl
          cases hbl
        obtain rfl : n = 0 := by
          rw [hplan] at hn
          exact (Nat.succ.inj hn).symm
        obtain ⟨rfl, rfl⟩ := hreach.place.eq_of_one ht hcnt
        obtain ⟨us', hreach', hspl⟩ := hreach.feed hgl hcode hgs hh
        refine ⟨us', by simpa using hreach', by rw [hspl, hplan]; rfl, fun hcln => ?_⟩
        rw [isTrivia_of_isBlank (hcln.sound e hmem) hbl] at hcode
        cases hcode
      | false =>
        have hstg : Stage lineStart (tokenize x) k done us (run ++ e :: (gs ++ todo')) := by
          rw [htodo] at hreach ⊢
          exact hreach.stage hgl
        have hsz : (run.filter (!·.isTrivia)).length + 1 = (L.planAt V k t).size := by rw [hcnt, hn]
        obtain ⟨new, e', hwr⟩ := h.exists_written hstg ht hsig hplanned hsz
        have hstg' := hstg.next hsig hgs hh hwr.stands hwr.point hwr.word
        rw [hcnt] at hstg'
        refine ⟨_, .inl hstg', ?_, fun hcln => ?_⟩
        · rw [spelling_append _ gs, spelling_append us, hwr.spells]
        · rw [significant_append, significant_append, hwr.significant hcln, significant_eq_nil_iff.2 hgs, List.append_nil]
    have hout' : emit (emit out (.text gap)) (.text ((L.planAt V k t).lowered L inner V k).text) ++
        (ofText x).gap (k + n + 1) = spelling us' := by
      rw [emit, emit, hout, hgap, hspl]
    obtain ⟨zs, hzs, hst, hsigs⟩ := ih hreach' hout'
    refine ⟨zs, hzs, hst, fun hcln => ?_⟩
    rw [hsigs hcln, hcode hcln, List.append_assoc]

/-- A steady text is lowered to tokens that stand for its own, a clean one to its code. -/
theorem exists_level (hstd : Steady L.program L.owner (tokenize x)) (hlex : Lexed lineStart (tokenize x))
    (hns : HasNames L.program) (hown : ∀ c, L.owner = some c → c ∈ L.program.classes)
    (ha : LowersTokens L inner tokens) (outer : List Var) :
    ∃ zs, Token.spelling zs = level L inner outer x ∧ Stands lineStart (tokenize x) zs ∧
      (Clean L.program L.owner (tokenize x) → significant zs =
        tokensFrom L tokens (View.ofTokens L.program.typeEnv outer (significant (tokenize x))) 0) := by
  have h : Reads L inner tokens x (.ofText L.program.typeEnv outer x) := ⟨hstd, rfl, hns, hown, ha⟩
  obtain ⟨gs, todo, hsl, hgs, hh⟩ := exists_span isTrivia (tokenize x)
  have hgap : [] ++ (ofText x).gap 0 = spelling gs := gap_zero hsl hgs hh
  obtain ⟨zs, hspl, hst, hsig⟩ := h.exists_pieces (.inl (.start hsl hgs hh hlex)) hgap
  refine ⟨zs, hspl, hst, fun hcln => ?_⟩
  rw [hsig hcln, significant_eq_nil_iff.2 hgs]
  exact (View.alike_ofText L.program.typeEnv outer x).tokensFrom

/-! ## All levels -/

theorem lowersTokens_toDepth (hns : HasNames L.program) (hown : ∀ c, L.owner = some c → c ∈ L.program.classes)
    (depth : Nat) : LowersTokens L (toDepth L depth) (tokensToDepth L depth) := by
  induction depth with
  | zero => exact fun visible ms _ hlex => ⟨ms, rfl, .refl hlex, fun _ _ => rfl⟩
  | succ depth ih =>
    intro visible ms hstd hlex
    have hsta : Lexed true ms := hlex.lineStart fun t ht => (isWhole_iff.1 (hstd.whole t ht)).2
    have hb := Tidy.bare_tokenize hsta
    obtain ⟨zs, hspl, hst, hsig⟩ := exists_level (hstd.tokenize_spelling hsta) (hlex.of_bare hb.symm) hns hown ih visible
    rw [significant_tokenize hsta] at hsig
    exact ⟨zs, hspl, hst.of_bare hb, fun hcln _ => hsig (hcln.tokenize_spelling hsta)⟩

/-- A steady text is lowered to any depth to tokens that stand for its own. -/
theorem exists_toDepth (hstd : Steady L.program L.owner (tokenize x)) (hlex : Lexed lineStart (tokenize x))
    (hns : HasNames L.program) (hown : ∀ c, L.owner = some c → c ∈ L.program.classes) (depth : Nat) (outer : List Var) :
    ∃ zs, Token.spelling zs = toDepth L depth outer x ∧ Stands lineStart (tokenize x) zs ∧ (Clean L.program L.owner (tokenize x) →
        significant zs = tokensToDepth L depth outer (significant (tokenize x))) := by
  cases depth with
  | zero => exact ⟨tokenize x, spelling_tokenize x, .refl hlex, fun _ => rfl⟩
  | succ depth => exact exists_level hstd hlex hns hown (lowersTokens_toDepth hns hown depth) outer

end Lowering

end Declass
