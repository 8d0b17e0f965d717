import Declass.Proofs.Token.Balance
import Declass.Proofs.Token.Concat

/-!
# The text between two tokens

The text between two significant tokens is the slice between their spans (`Fragment.Stretch.slice`). Main statement: cut into tokens
alone, it gives the tokens between them again, and its groups are those of the source (`Fragment.tokenize_between`).
-/

namespace Declass

open List

namespace Token

variable {offset : Nat} {t u : Token} {ts us ms vs : List Token} {as bs : List Token}

/-! ## Places of tokens -/

theorem Placed.le_start (h : Placed offset ts) (ht : t ∈ ts) : offset ≤ t.start := by
  induction h with
  | nil => simp at ht
  | cons hst _ hs ih =>
    rcases mem_cons.1 ht with rfl | ht
    · exact Nat.le_of_eq hst.symm
    · have hle := ih ht
      simp only [stop] at hle
      omega

theorem Placed.start_lt_stop (h : Placed offset ts) (ht : t ∈ ts) : t.start < t.stop :=
  Nat.lt_add_of_pos_right (Text.byteSize_pos (h.text_ne_nil ht))

/-- Each token ends before the tokens after it start. -/
theorem Placed.pairwise (h : Placed offset ts) : ts.Pairwise fun t u => t.stop ≤ u.start := by
  induction h with
  | nil => exact .nil
  | cons _ _ hs ih => exact .cons (fun _ hu => hs.le_start hu) ih

theorem Placed.append_right (h : Placed offset (as ++ bs)) : Placed (offset + (spelling as).byteSize) bs := by
  induction as generalizing offset with
  | nil => simpa [spelling, Text.byteSize] using h
  | cons a as ih =>
    cases h with
    | cons hst _ hs =>
      have hr := ih hs
      rwa [stop, hst, Nat.add_assoc, ← Text.byteSize_append] at hr

theorem Placed.append_left (h : Placed offset (as ++ bs)) : Placed offset as := by
  induction as generalizing offset with
  | nil => exact .nil offset
  | cons a as ih =>
    cases h with
    | cons hst hne hs => exact .cons hst hne (ih hs)

/-- The tokens whose spans lie between two byte offsets. -/
def lying (start stop : Nat) (ts : List Token) : List Token :=
  ts.filter fun t => start ≤ t.start && t.stop ≤ stop

/-- The tokens between two tokens are those with spans between. -/
theorem Placed.lying_eq (h : Placed offset (us ++ t :: (ms ++ u :: vs))) :
    lying t.stop u.start (us ++ t :: (ms ++ u :: vs)) = ms := by
  have hlt {v : Token} (hv : v ∈ us ++ t :: (ms ++ u :: vs)) := h.start_lt_stop hv
  have ht := hlt (v := t) (by simp)
  have hu := hlt (v := u) (by simp)
  obtain ⟨-, htl, hbef⟩ := pairwise_append.1 h.pairwise
  obtain ⟨haft, hr⟩ := pairwise_cons.1 htl
  obtain ⟨-, hl, hin⟩ := pairwise_append.1 hr
  have hno : us.filter (fun v => t.stop ≤ v.start && v.stop ≤ u.start) = [] := by
    refine filter_eq_nil_iff.2 fun v hv => ?_
    have hs := hbef v hv t mem_cons_self
    have hst := hlt (v := v) (by simp [hv])
    simp
    omega
  have hall : ms.filter (fun v => t.stop ≤ v.start && v.stop ≤ u.start) = ms := by
    refine filter_eq_self.2 fun v hv => ?_
    have hst := haft v (by simp [hv])
    have hs := hin v hv u mem_cons_self
    simp
    omega
  have hno' : vs.filter (fun v => t.stop ≤ v.start && v.stop ≤ u.start) = [] := by
    refine filter_eq_nil_iff.2 fun v hv => ?_
    have hst := (pairwise_cons.1 hl).1 v hv
    have hs := hlt (v := v) (by simp [hv])
    simp
    omega
  rw [lying, filter_append, hno, filter_cons_of_neg (by simp; omega), filter_append, hall,
    filter_cons_of_neg (by simp; omega), hno', append_nil, nil_append]

/-! ## Groups of other tokens -/

/-- Where a group is closed is told by the marks alone. -/
theorem closeWithin_map {f : Token → Token} (hf : ∀ t p, (f t).isPunct p = t.isPunct p) (b : Bracket) (depth : Nat) :
    closeWithin b depth (ts.map f) = closeWithin b depth ts := by
  induction ts generalizing depth with
  | nil => rfl
  | cons t ts ih => simp only [map_cons, closeWithin, hf, ih]

/-- A group closed within the first tokens is closed there whatever follows. -/
theorem closeWithin_append_iff {b : Bracket} {depth m : Nat} :
    closeWithin b depth ts = some m ↔ closeWithin b depth (ts ++ us) = some m ∧ m < ts.length := by
  constructor
  · intro h
    obtain ⟨-, v, hv, -⟩ := level_of_closeWithin h
    exact ⟨closeWithin_append h, (List.getElem?_eq_some_iff.1 hv).1⟩
  · rintro ⟨h, hm⟩
    obtain ⟨hlv, v, hv, hc⟩ := level_of_closeWithin h
    rw [getElem?_append_left hm] at hv
    rw [take_append_of_le_length (Nat.le_of_lt hm)] at hlv
    have hspl : ts = ts.take m ++ v :: ts.drop (m + 1) := by
      conv_lhs => rw [← take_append_drop m ts, drop_eq_getElem?_toList_append, hv]
      rfl
    rw [hspl, closeWithin_of_level hlv hc, length_take_of_le (Nat.le_of_lt hm)]

end Token

namespace Fragment

open Token

variable {s : Text} {i j : Nat} {t u : Token} {n : Nat}

/-! ## Two tokens of a source -/

/-- The tokens of a source around two of its significant tokens. -/
structure Stretch (s : Text) (i j : Nat) (t u : Token) where
  before : List Token
  inside : List Token
  after : List Token
  split : tokenize s = before ++ t :: (inside ++ u :: after)
  significant : t.isTrivia = false ∧ u.isTrivia = false
  first : (before.filter (!·.isTrivia)).length = i
  last : i + 1 + (inside.filter (!·.isTrivia)).length = j

theorem nonempty_stretch (hij : i < j) (ht : (ofText s).tok? i = some t) (hu : (ofText s).tok? j = some u) :
    Nonempty (Stretch s i j t u) := by
  rw [tok?, tokens_ofText] at ht hu
  obtain ⟨before, rest, hspl, hfst, hsig⟩ := split_at (tokenize s) ht
  have hr : (rest.filter (!·.isTrivia))[j - (i + 1)]? = some u := by
    rw [hspl, filter_append, filter_cons_of_pos (by simp [hsig]),
      getElem?_append_right (by omega), hfst, getElem?_cons, if_neg (by omega)] at hu
    rwa [Nat.sub_sub] at hu
  obtain ⟨inside, after, hins, hl, hsig'⟩ := split_at rest hr
  exact ⟨before, inside, after, by rw [hspl, hins], ⟨hsig, hsig'⟩, hfst, by omega⟩

namespace Stretch

variable (r : Stretch s i j t u)

theorem between_eq : (ofText s).between i j = Token.spelling r.inside := by
  have h := Fragment.between_eq r.split r.significant.1 r.significant.2
  rwa [r.first, r.last] at h

theorem placed : Placed 0 (r.before ++ t :: (r.inside ++ u :: r.after)) :=
  r.split ▸ placed_tokenizeFrom true 0 s

include r in
theorem stop_le_start : t.stop ≤ u.start := by
  obtain ⟨-, htl, -⟩ := pairwise_append.1 r.placed.pairwise
  exact (pairwise_cons.1 htl).1 u (by simp)

theorem placed_inside : Placed t.stop r.inside := by
  have h := r.placed.append_right
  cases h with
  | cons _ _ hs => exact hs.append_left

/-- No directive can start right after a significant token. -/
theorem lexed_inside : Lexed false r.inside := by
  have hlex : Lexed true ((r.before ++ [t]) ++ (r.inside ++ u :: r.after)) := by
    have h := lexed_tokenizeFrom true 0 s
    rw [← tokenize, r.split] at h
    simpa using h
  have hfalse : lineStartAfterAll true (r.before ++ [t]) = false := by
    have hk : t.kind ≠ .space := by
      intro hk
      simpa [isTrivia, hk] using r.significant.1
    simp [lineStartAfterAll, lineStartAfter, hk]
  have hrt := hlex.append_right
  rw [hfalse] at hrt
  exact hrt.append_left

/-- The significant tokens between the two. -/
theorem significant_inside : ((ofText s).tokens.drop (i + 1)).take (j - i - 1) = r.inside.filter (!·.isTrivia) := by
  have hd : (ofText s).tokens.drop (i + 1) = (r.inside ++ u :: r.after).filter (!·.isTrivia) := by
    rw [tokens_ofText, r.split, append_cons, filter_append]
    exact drop_left' (by simp [r.first, r.significant.1])
  have hl := r.last
  rw [hd, filter_append]
  exact take_left' (by omega)

include r in
/-- The text between two tokens is the slice between their spans. -/
theorem slice : String.Pos.Raw.extract (String.ofList s) ⟨t.stop⟩ ⟨u.start⟩ = String.ofList ((ofText s).between i j) := by
  have hs := spelling_tokenize s
  rw [r.split] at hs
  have hs' : (Token.spelling r.before ++ t.text) ++ Token.spelling r.inside ++ (u.text ++ Token.spelling r.after) = s := by
    simpa [Token.spelling] using hs
  have hsp : t.stop = String.utf8Len (Token.spelling r.before ++ t.text) := by
    rw [stop, r.placed.start_eq, Nat.zero_add, ← Text.byteSize_append, Text.byteSize_eq_utf8Len]
  have hst : u.start = String.utf8Len (Token.spelling r.before ++ t.text) + String.utf8Len (Token.spelling r.inside) := by
    have hpl : Placed 0 ((r.before ++ t :: r.inside) ++ u :: r.after) := by simpa using r.placed
    rw [hpl.start_eq, Nat.zero_add, ← Text.byteSize_eq_utf8Len, ← Text.byteSize_eq_utf8Len, ← Text.byteSize_append]
    simp [Token.spelling]
  have hslice := String.extract_of_valid (Token.spelling r.before ++ t.text) (Token.spelling r.inside)
    (u.text ++ Token.spelling r.after)
  rw [r.between_eq, hsp, hst]
  rwa [hs'] at hslice

/-- The text between two tokens is cut into those between, unless a directive would start it. -/
theorem tokenize_inside (hfst : ∀ m, r.inside.find? (·.kind != .space) = some m → m.isStray = false) :
    (tokenize ((ofText s).between i j)).map (shift t.stop) = r.inside := by
  have hlex := r.lexed_inside.lineStart_of_first hfst
  rw [r.between_eq, tokenize, ← tokenizeFrom_shift, Nat.zero_add, hlex.tokenizeFrom_eq r.placed_inside]

end Stretch

theorem tokens_ofText_shift {x : Text} {ms : List Token} (h : (tokenize x).map (shift n) = ms) :
    (ofText x).tokens.map (shift n) = ms.filter (!·.isTrivia) := by
  rw [← h, tokens_ofText, filter_map]
  rfl

/-- Where a text's significant tokens are those of a fragment from `i` to `j`, its groups are those closed before `j`. -/
theorem close?_iff_of_tokens {F G : Fragment} {k c : Nat} (hj : j ≤ F.size)
    (h : G.tokens.map (shift n) = (F.tokens.drop i).take (j - i)) :
    G.close? k = some c ↔ F.close? (i + k) = some (i + c) ∧ i + c < j := by
  have hspl : F.tokens.drop i = G.tokens.map (shift n) ++ (F.tokens.drop i).drop (j - i) := by
    rw [h, take_append_drop]
  have hlen : G.tokens.length = j - i := by
    rw [← length_map, h, length_take, length_drop]
    rw [size] at hj
    omega
  have hcl (b : Bracket) (m : Nat) : closeWithin b 0 (G.tokens.drop (k + 1)) = some m ↔
      closeWithin b 0 (F.tokens.drop (i + k + 1)) = some m ∧ m < (G.tokens.drop (k + 1)).length := by
    by_cases hk : k + 1 ≤ G.tokens.length
    · have hd : F.tokens.drop (i + k + 1) = (G.tokens.drop (k + 1)).map (shift n) ++ (F.tokens.drop i).drop (j - i) := by
        rw [Nat.add_assoc, ← drop_drop, hspl, drop_append_of_le_length (by simpa using hk), map_drop, ← hspl]
      rw [hd, ← closeWithin_map (f := shift n) (fun _ _ => rfl), closeWithin_append_iff, length_map]
    · have hnil : G.tokens.drop (k + 1) = [] := drop_eq_nil_iff.2 (by omega)
      simp [hnil, closeWithin]
  have htok (hk : k < G.tokens.length) : F.tok? (i + k) = (G.tok? k).map (shift n) := by
    rw [tok?, tok?, ← getElem?_drop, hspl, getElem?_append_left (by simpa using hk), getElem?_map]
  rw [close?_eq_some_iff, close?_eq_some_iff]
  constructor
  · rintro ⟨b, o, m, ho, hop, hm, rfl⟩
    have hk : k < G.tokens.length := lt_size_of_tok? ho
    obtain ⟨hF, hlt⟩ := (hcl b m).1 hm
    rw [length_drop] at hlt
    exact ⟨⟨b, shift n o, m, by rw [htok hk, ho]; rfl, hop, hF, by omega⟩, by omega⟩
  · rintro ⟨⟨b, o, m, ho, hop, hm, hc⟩, hlt⟩
    have hk : k < G.tokens.length := by omega
    rw [htok hk] at ho
    obtain ⟨o', ho', rfl⟩ := Option.map_eq_some_iff.1 ho
    refine ⟨b, o', m, ho', hop, (hcl b m).2 ⟨hm, ?_⟩, by omega⟩
    rw [length_drop]
    omega

/-- The slice between two significant tokens is cut into the tokens between them, moved by where it starts, and its groups are
those of the source that are closed before the second. The first token between them that is not white space must not be a `#`
that starts no directive in the source: here it would start one. -/
theorem tokenize_between (s : Text) {i j : Nat} {t u : Token} (hij : i < j) (ht : (ofText s).tok? i = some t)
    (hu : (ofText s).tok? j = some u)
    (hfirst : ∀ m, (lying t.stop u.start (tokenize s)).find? (·.kind != .space) = some m → m.isPunct "#" = false) :
    String.Pos.Raw.extract (String.ofList s) ⟨t.stop⟩ ⟨u.start⟩ = String.ofList ((ofText s).between i j) ∧
      (tokenize ((ofText s).between i j)).map (shift t.stop) = lying t.stop u.start (tokenize s) ∧
      ∀ k c, (ofText ((ofText s).between i j)).close? k = some c ↔
        (ofText s).close? (i + 1 + k) = some (i + 1 + c) ∧ i + 1 + c < j := by
  obtain ⟨r⟩ := nonempty_stretch hij ht hu
  have hlying : lying t.stop u.start (tokenize s) = r.inside := by
    rw [r.split]
    exact r.placed.lying_eq
  rw [hlying] at hfirst ⊢
  have htokens := r.tokenize_inside hfirst
  refine ⟨r.slice, htokens, fun k c => ?_⟩
  have hsize : j ≤ (ofText s).size := Nat.le_of_lt (lt_size_of_tok? hu)
  refine close?_iff_of_tokens (n := t.stop) hsize ?_
  rw [tokens_ofText_shift htokens, ← r.significant_inside, Nat.sub_sub]

/-- A body with a directive first, and a brace in a comment. -/
theorem tokenize_between_body :
    let s : Text := "f()\x7b\n#if A\n a[1'0]\x7b/*\x7d*/\x7d\n#endif\n\x7d"
    (ofText s).tok? 3 = some ⟨.punct, "\x7b", 3⟩ ∧ (ofText s).tok? 10 = some ⟨.punct, "\x7d", 33⟩ ∧
      ((lying 4 33 (tokenize s)).find? (·.kind != .space)).map Token.text = some "#if A".toList ∧
      (tokenize ((ofText s).between 3 10)).map (shift 4) = lying 4 33 (tokenize s) ∧
      (ofText ((ofText s).between 3 10)).close? 4 = some 5 := by
  intro s
  have ht : (ofText s).tok? 3 = some ⟨.punct, "\x7b", 3⟩ := by decide +kernel
  have hu : (ofText s).tok? 10 = some ⟨.punct, "\x7d", 33⟩ := by decide +kernel
  have hm : (lying 4 33 (tokenize s)).find? (·.kind != .space) = some ⟨.directive, "#if A", 5⟩ := by decide +kernel
  have hclose : (ofText s).close? (3 + 1 + 4) = some (3 + 1 + 5) := by decide +kernel
  obtain ⟨-, htokens, hgroups⟩ := tokenize_between s (by decide) ht hu fun m h => by
    cases hm.symm.trans h
    decide
  exact ⟨ht, hu, by rw [hm]; rfl, htokens, (hgroups 4 5).mpr ⟨hclose, by decide⟩⟩

end Fragment

end Declass
