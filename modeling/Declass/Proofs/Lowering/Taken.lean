import Declass.Proofs.Lowering.Stage

/-!
# Arguments that are taken

Steady arguments are lowered to tokens that can stand between the brackets of the new call (`Token.Fills`), as they are
(`exists_args`) or trimmed (`exists_trimmed_args`).
-/

namespace Declass

open List Token

namespace Lowering

open Fragment

variable {visible : List Var}

/-- Steady tokens are lowered to tokens that stand for them, clean ones to `tokens`. -/
def LowersTokens (L : Lowering) (inner : List Var → Text → Text) (tokens : List Var → List Token → List Token) : Prop :=
  ∀ visible ms, Steady L.program L.owner ms → Lexed false ms →
    ∃ zs, Token.spelling zs = inner visible (Token.spelling ms) ∧ Stands false ms zs ∧
      (Clean L.program L.owner ms → (∀ t ∈ ms, t.kind ≠ .directive) → significant zs = tokens visible (significant ms))

/-! ## Tokens without code -/

theorem forall_of_bare {ts ts' : List Token} (heq : ts.map bare = ts'.map bare) {P : Token → Prop}
    (hP : ∀ t : Token, P t.bare ↔ P t) (h : ∀ t ∈ ts, P t) : ∀ t ∈ ts', P t := by
  intro t' ht'
  have hmem : t'.bare ∈ ts.map bare := heq ▸ mem_map_of_mem ht'
  obtain ⟨t, ht, hb⟩ := mem_map.1 hmem
  rw [← hP, ← hb, hP]
  exact h t ht

section

variable {lineStart : Bool} {ms : List Token}

section

variable (hlex : Lexed lineStart ms) (hsnd : ∀ t ∈ ms, t.isSound) (h : isArguments ms)

include hlex hsnd h

theorem isBlank_of_isArguments (htr : ∀ t ∈ ms, t.isTrivia) : ∀ t ∈ ms, t.isBlank := by
  obtain ⟨hdirective, hcom⟩ := isArguments_iff.1 h
  intro t ht
  obtain ⟨lineStart', rest, hcut, -⟩ := hlex.cut_of_mem ht
  refine (hcut.kind_eq_space_iff (hsnd t ht)).1 ?_
  have hki : t.kind ≠ .comment := by
    rcases hcom with hcom | ⟨u, hu, hc⟩
    · exact hcom t ht
    · rw [htr u hu] at hc
      nomatch hc
  have htriv := htr t ht
  rw [isTrivia] at htriv
  cases hk : t.kind <;> simp_all

/-- The signature depends on the significant tokens of the arguments. -/
theorem choose?_spelling (C : ArgContext) (signatures : List Callable) : C.choose? signatures (splitArgs (spelling ms)) =
      ArgContext.select? signatures ((splitTokens (significant ms)).map C.tokensTag?) := by
  have hdir := (isArguments_iff.1 h).1
  have hb := Tidy.bare_tokenize
    (hlex.anywhere (fun t ht => (isSound_iff.1 (hsnd t ht)).2.1) hdir true)
  rw [C.choose?_splitArgs, significant_of_bare hb]
  · exact forall_of_bare hb.symm (fun _ => .rfl) hsnd
  · exact forall_of_bare hb.symm (fun _ => .rfl) hdir
  · intro htr
    refine forall_of_bare hb.symm (fun _ => .rfl) ?_
    refine isBlank_of_isArguments hlex hsnd h ?_
    exact forall_of_bare hb (fun _ => .rfl) htr

end

theorem endsWell_iff_getLast? {ts : List Token} :
    endsWell (fun _ => true) ts ↔ ∀ t, ts.getLast? = some t → t.endsLine = false := by
  have hf : ts.reverse.find? (fun _ => true) = ts.getLast? := by
    rw [← head?_reverse]
    cases ts.reverse <;> rfl
  rw [endsWell, hf]
  cases ts.getLast? <;> simp

theorem significant_middle {bs es : List Token} (hsnd : ∀ t ∈ bs ++ ms ++ es, t.isSound)
    (hbl : ∀ t ∈ bs ++ es, t.isBlank) : significant (bs ++ ms ++ es) = significant ms := by
  have hbs : significant bs = [] :=
    significant_eq_nil_of_isBlank (fun t ht => hsnd t (by simp [ht])) fun t ht => hbl t (by simp [ht])
  have hes : significant es = [] :=
    significant_eq_nil_of_isBlank (fun t ht => hsnd t (by simp [ht])) fun t ht => hbl t (by simp [ht])
  rw [significant_append, significant_append, hbs, hes, append_nil, nil_append]

theorem eq_nil_of_isBlank (hh : ∀ t, ms.head? = some t → t.isBlank = false) (h : ∀ t ∈ ms, t.isBlank) : ms = [] := by
  cases ms with
  | nil => rfl
  | cons t ms =>
    have hnot := hh t rfl
    rw [h t mem_cons_self] at hnot
    nomatch hnot

end

/-! ## Arguments between brackets -/

section

variable {L : Lowering} {inner : List Var → Text → Text} {tokens : List Var → List Token → List Token} {x : Text}
  {i j : Nat}

theorem inside_eq (g : Bracketed x i j) : (ofText x).inside i j = significant g.inside := by
  have hts : (ofText x).tokens = (g.before.filter (!·.isTrivia) ++ [g.opener]) ++
      (g.inside.filter (!·.isTrivia) ++ g.closer :: g.after.filter (!·.isTrivia)) := by
    rw [tokens_ofText, g.split, filter_append, filter_cons_of_pos (by simp [g.significant.1]),
      filter_append, filter_cons_of_pos (by simp [g.significant.2])]
    simp
  have hlen : (g.before.filter (!·.isTrivia) ++ [g.opener]).length = i + 1 := by
    rw [length_append, g.first]
    rfl
  have hcnt : j - i - 1 = (g.inside.filter (!·.isTrivia)).length := by
    have hl := g.last
    omega
  rw [inside, hts, ← hlen, drop_left, hcnt, take_left]
  rfl

theorem split_inside (g : Bracketed x i j) : tokenize x = (g.before ++ [g.opener]) ++ g.inside ++ (g.closer :: g.after) := by
  rw [g.split]
  simp

theorem inside_subset (g : Bracketed x i j) : g.inside ⊆ tokenize x := by
  intro t ht
  rw [split_inside g]
  simp [ht]

theorem clean_inside (h : Clean L.program L.owner (tokenize x)) (g : Bracketed x i j) : Clean L.program L.owner g.inside := by
  rw [split_inside g] at h
  exact h.run

theorem steady_inside (h : Steady L.program L.owner (tokenize x)) (g : Bracketed x i j) : Steady L.program L.owner g.inside := by
  rw [split_inside g] at h
  exact h.run

/-- The last token in brackets does not go on to its line's end. -/
theorem endsLine_inside (g : Bracketed x i j) : ∀ t, g.inside.getLast? = some t → t.endsLine = false := by
  intro t ht
  obtain ⟨ms, hms⟩ := getLast?_eq_some_iff.1 ht
  have hlex : Lexed false (ms ++ t :: (g.closer :: g.after)) := by
    have hins := g.lexed_inside
    rw [hms] at hins
    simpa using hins
  obtain ⟨d, hd, hf⟩ := g.exists_head_closer
  refine hlex.append_right.cut.1.endsLine_eq_false ?_ hf
  rw [hlex.append_right.cut.2.head_spelling]
  exact hd

section

variable {ts zs : List Token}

theorem fills_of_stands (h : Stands false ts zs) (hwh : ∀ t ∈ ts, t.isWhole)
    (he : ∀ t, ts.getLast? = some t → t.endsLine = false) : Token.Fills ts zs where
  lexed := h.lexed
  whole := h.copied.whole hwh
  ends := endsWell_iff_getLast?.1 (h.ends _ (fun _ => rfl) (fun _ _ _ => rfl) (endsWell_iff_getLast?.2 he))
  copied := h.copied
  kept := h.kept

/-- What stands for neat tokens can be trimmed. -/
theorem exists_trimmed (h : Stands false ts zs) (hwh : ∀ t ∈ ts, t.isWhole) (hne : isNeat ts) :
    ∃ bs ms es, zs = bs ++ ms ++ es ∧ (∀ t ∈ bs ++ es, t.isBlank) ∧ spelling ms = Text.trim (spelling zs) ∧
      (∀ t, ms.head? = some t → t.isBlank = false) ∧ Token.Fills ts ms := by
  rw [isNeat, Bool.and_eq_true] at hne
  have hsta := h.starts hne.1
  have hwhole := h.copied.whole hwh
  obtain ⟨bs, ms, es, rfl, hbl, htrim, hh, hl⟩ := trim_spelling h.lexed (fun t ht => (isWhole_iff.1 (hwhole t ht)).1)
    (h.ends (!·.isBlank) (fun _ => rfl) (fun t _ hb => by rw [hb]; rfl) hne.2)
  have hmem : ms ⊆ bs ++ ms ++ es := fun t ht => by simp [ht]
  have hlex : Lexed false ms := by
    have hall := h.lexed.append_left.append_right
    cases ms with
    | nil => exact .nil _
    | cons t ms =>
      have hblank := hh t rfl
      refine hall.inline (isWhole_iff.1 (hwhole t (hmem mem_cons_self))).2 ?_ ?_ false
      · have hbs : bs.find? (!·.isBlank) = none := find?_eq_none.2 fun b hb => by simp [hbl b (mem_append_left es hb)]
        rw [startsWell, append_assoc, find?_append, hbs, cons_append, find?_cons_of_pos (by simp [hblank])] at hsta
        simpa using hsta
      · intro hk
        have hg : t.isGlue := by rw [isGlue, hk]; rfl
        rw [hall.isBlank_of_isGlue mem_cons_self hg] at hblank
        cases hblank
  exact ⟨bs, ms, es, rfl, hbl, htrim.symm, hh, ⟨hlex, fun t ht => hwhole t (hmem ht), hl⟩,
    fun t ht => h.copied t (hmem ht), h.kept.middle h.lexed hbl⟩

end

variable (hin : LowersTokens L inner tokens) (hstd : Steady L.program L.owner (tokenize x)) (g : Bracketed x i j)

include hin hstd

/-- Arguments that are taken as they are. -/
theorem exists_args : ∃ zs, Token.spelling zs = inner visible ((ofText x).between i j) ∧
      Stands false g.inside zs ∧ Token.Fills g.inside zs ∧ (Clean L.program L.owner (tokenize x) → isArguments g.inside →
        significant zs = tokens visible ((ofText x).inside i j)) := by
  have hins := steady_inside hstd g
  obtain ⟨zs, hspl, hst, hsig⟩ := hin visible g.inside hins g.lexed_inside.append_left
  refine ⟨zs, ?_, hst, fills_of_stands hst hins.whole (endsLine_inside g), fun hcln ha => ?_⟩
  · rw [hspl, g.between]
  · rw [hsig (clean_inside hcln g) (isArguments_iff.1 ha).1, inside_eq]

/-- Arguments that are trimmed after they are lowered. -/
theorem exists_trimmed_args (hne : isNeat g.inside) :
    ∃ zs, Token.spelling zs = Text.trim (inner visible ((ofText x).between i j)) ∧ Token.Fills g.inside zs ∧
      (Clean L.program L.owner (tokenize x) → isArguments g.inside →
        significant zs = tokens visible ((ofText x).inside i j) ∧ (significant zs = [] → zs = [])) := by
  obtain ⟨zs, hspl, hst, -, hsig⟩ := exists_args hin hstd g
  obtain ⟨bs, ms, es, rfl, hbl, htrim, hh, hfills⟩ := exists_trimmed hst (steady_inside hstd g).whole hne
  refine ⟨ms, by rw [htrim, hspl], hfills, fun hcln ha => ?_⟩
  have hcln' := clean_inside hcln g
  have hmid := significant_middle (hst.copied.sound hcln'.sound) hbl
  refine ⟨by rw [← hmid, hsig hcln ha], fun hnil => ?_⟩
  rcases hst.code with ⟨t, ht, hc⟩ | hb
  · rw [← hmid, significant_eq_nil_iff] at hnil
    rw [hnil t ht] at hc
    cases hc
  · have htr : ∀ t ∈ g.inside, t.isTrivia := by
      rw [← significant_eq_nil_iff, ← significant_of_bare hb, hmid]
      exact hnil
    have hall := forall_of_bare hb.symm (fun _ => .rfl)
      (isBlank_of_isArguments g.lexed_inside.append_left hcln'.sound ha htr)
    exact eq_nil_of_isBlank hh fun t ht => hall t (by simp [ht])

/-- Arguments that are trimmed before they are lowered. -/
theorem exists_args_of_trimmed (hneat : isNeat g.inside) :
    ∃ ms zs, Token.spelling ms = Text.trim ((ofText x).between i j) ∧ Token.Fills g.inside ms ∧
      Token.spelling zs = inner visible (Token.spelling ms) ∧ Token.Fills g.inside zs ∧ (ms ≠ [] → zs ≠ []) ∧
      (Clean L.program L.owner (tokenize x) → isArguments g.inside → ((ofText x).inside i j = [] → ms = []) ∧
        ((ofText x).inside i j ≠ [] → ms ≠ [] ∧ significant zs = tokens visible ((ofText x).inside i j) ∧ significant zs ≠ [] ∧
          ∀ (C : ArgContext) (signatures : List Callable), C.choose? signatures (splitArgs (spelling ms)) =
            ArgContext.select? signatures ((splitTokens ((ofText x).inside i j)).map C.tokensTag?))) := by
  have hins := steady_inside hstd g
  have hlex := g.lexed_inside.append_left
  have hclean (hcln : Clean L.program L.owner (tokenize x)) := clean_inside hcln g
  rw [inside_eq g, g.between]
  generalize g.inside = ts at *
  obtain ⟨bs, ms, es, rfl, hbl, htrim, hh, hfills⟩ := exists_trimmed (.refl hlex) hins.whole hneat
  have hmem : ∀ t ∈ ms, t ∈ bs ++ ms ++ es := fun t ht => by simp [ht]
  obtain ⟨zs, hspl, hst, hzs⟩ := hin visible ms hins.run hfills.lexed
  have hzsFills := fills_of_stands hst hfills.whole hfills.ends
  refine ⟨ms, zs, htrim, hfills, hspl, ⟨hzsFills.toEnclosed, hfills.copied.trans hst.copied, hfills.kept.trans hst.kept⟩,
    fun hne hnil => ?_, fun hcln ha => ?_⟩
  · rcases hst.code with ⟨t, ht, -⟩ | hb
    · exact ne_nil_of_mem ht hnil
    · rw [hnil, map_nil, eq_comm, map_eq_nil_iff] at hb
      exact hne hb
  have hcln' := hclean hcln
  have hmid := significant_middle hcln'.sound hbl
  have hdir : ∀ t ∈ ms, t.kind ≠ .directive := fun t ht => (isArguments_iff.1 ha).1 t (hmem t ht)
  rw [hmid]
  constructor
  · intro hnil
    rw [← hmid, significant_eq_nil_iff] at hnil
    have hall := isBlank_of_isArguments hlex hcln'.sound ha hnil
    exact eq_nil_of_isBlank hh fun t ht => hall t (hmem t ht)
  · intro hc
    have hsig : ∃ t ∈ ms, t.isTrivia = false := by
      by_contra hn
      refine hc (significant_eq_nil_iff.2 fun t ht => ?_)
      by_contra htr
      exact hn ⟨t, ht, by simpa using htr⟩
    refine ⟨?_, hzs hcln'.run hdir, fun hnil => ?_, fun C signatures => ?_⟩
    · obtain ⟨t, ht, -⟩ := hsig
      exact ne_nil_of_mem ht
    · rcases hst.code with ⟨t, ht, hc'⟩ | hb
      · rw [significant_eq_nil_iff] at hnil
        rw [hnil t ht] at hc'
        cases hc'
      · rw [significant_of_bare hb] at hnil
        exact hc hnil
    · exact choose?_spelling hfills.lexed (fun t ht => hcln'.sound t (hmem t ht)) (isArguments_iff.2 ⟨hdir, .inr hsig⟩) C
        signatures

end

end Lowering

end Declass
