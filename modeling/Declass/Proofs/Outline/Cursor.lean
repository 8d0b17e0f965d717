import Declass.Proofs.Outline.Grammar

/-!
# Positions in a text that is put together

`At src k rest` says that the significant token `k` of a source is the first one of `rest`, the end of the source. So the tokens of
a text that is put together from parts are found part by part, with their byte offsets.
-/

namespace Declass.Grammar

open List Token
open Declass.Bracket (closed? opened?)
open Fragment (ofText)

variable {offset : Nat}
variable {src rest : Text} {k : Nat} {x y : Text} {b : Bracket} {c : Char} {g : Gap} {lineStart : Bool} {ts : List Token}

/-! ## Parts at any place -/

theorem level_shift (m n : Nat) : b.level m (ts.map (shift n)) = b.level m ts := by
  induction ts generalizing m with
  | nil => rfl
  | cons t ts ih =>
    have ho : opened? (shift n t) = opened? t := rfl
    have hc : closed? (shift n t) = closed? t := rfl
    simp only [map_cons, Bracket.level, ho, hc, ih]

theorem endsBefore_of_isClosed (h : isClosed (tokenizeFrom false 0 x)) (offset : Nat)
    (hstp : ∀ t ∈ tokenizeFrom false offset x, t.Stops rest) : EndsBefore (tokenizeFrom false offset x) rest := by
  intro t ht
  have hmv : (tokenizeFrom false 0 x).getLast?.map (shift offset) = some t := by
    rw [← getLast?_map, ← tokenizeFrom_shift, Nat.zero_add, ht]
  obtain ⟨u, hu, rfl⟩ := Option.map_eq_some_iff.1 hmv
  rw [isClosed, hu, Option.all_some, Bool.and_eq_true, Bool.not_eq_true'] at h
  exact ⟨h.1, h.2, hstp _ (mem_of_getLast? ht)⟩

theorem Gap.isTrivia (g : Gap) (offset : Nat) : ∀ t ∈ tokenizeFrom false offset g.text, t.isTrivia := by
  have hsh := tokenizeFrom_shift false 0 offset g.text
  rw [Nat.zero_add] at hsh
  intro t ht
  rw [hsh] at ht
  obtain ⟨u, hu, rfl⟩ := mem_map.1 ht
  exact all_eq_true.1 g.trivia u hu

/-- No token starts with white space. -/
def Starts (rest : Text) : Prop :=
  ∀ d, rest.head? = some d → isSpace d = false

theorem Gap.endsBefore (g : Gap) (offset : Nat) (h : Starts rest) : EndsBefore (tokenizeFrom false offset g.text) rest :=
  endsBefore_of_isClosed g.closed offset fun t ht d hd => .inl ⟨g.isTrivia offset t ht, h d hd⟩

theorem Inner.endsBefore (x : Inner b) (offset : Nat) (hc : divides c) (rest : Text) :
    EndsBefore (tokenizeFrom false offset x.text) (c :: rest) :=
  endsBefore_of_isClosed x.closed offset fun _ _ d hd => .inr (by cases hd; exact hc)

/-- At another place the significant tokens are the same. -/
theorem filter_tokenizeFrom : (tokenizeFrom false offset x).filter (!·.isTrivia) = (significant x).map (shift offset) := by
  have hsh := tokenizeFrom_shift false 0 offset x
  rw [Nat.zero_add] at hsh
  rw [hsh, filter_map]
  rfl

theorem Inner.level (x : Inner b) (offset : Nat) :
    b.level 0 ((tokenizeFrom false offset x.text).filter (!·.isTrivia)) = some 0 := by
  rw [filter_tokenizeFrom, level_shift, x.balanced]

/-- A gap starts with white space or a comment. -/
theorem Gap.head {d : Char} (h : g.text.head? = some d) : isSpace d ∨ d = '/' := by
  obtain ⟨u, hu⟩ := head?_eq_some_iff.1 h
  have htr := g.isTrivia 0
  rw [hu, tokenizeFrom_cons] at htr
  have hfst := htr _ mem_cons_self
  have hspec := lexeme_spec false d u
  simp only [first] at hfst
  generalize (lexeme false d u).1 = kind at hfst hspec
  generalize (lexeme false d u).2 = n at hspec
  cases hspec with
  | space hs =>
    simp only [startsSpace, isSpace, Bool.or_eq_true] at hs ⊢
    tauto
  | line hc _ => exact .inr hc
  | block hc _ => exact .inr hc
  | directive _ hl => cases hl
  | _ => cases hfst

/-! ## Positions -/

/-- The byte at which the end `rest` of a source starts. -/
def place (src rest : Text) : Nat :=
  src.byteSize - rest.byteSize

/-- The source goes on with `rest` after `k` significant tokens. -/
def Reaches (lineStart : Bool) (src : Text) (k : Nat) (rest : Text) : Prop :=
  ∃ us, tokenize src = us ++ tokenizeFrom lineStart (place src rest) rest ∧ (us.filter (!·.isTrivia)).length = k

/-- The significant token `k` of the source is the first one of `rest`. -/
def At (src : Text) (k : Nat) (rest : Text) : Prop :=
  ∃ lineStart, Reaches lineStart src k rest

theorem Reaches.place_add (h : Reaches lineStart src k rest) : place src rest + rest.byteSize = src.byteSize := by
  obtain ⟨us, hs, -⟩ := h
  have hspl : spelling us ++ rest = src := by
    have hall := spelling_tokenize src
    rwa [hs, spelling_append, spelling_tokenizeFrom] at hall
  rw [place, ← hspl, Text.byteSize_append]
  omega

theorem At.place_add (h : At src k rest) : place src rest + rest.byteSize = src.byteSize :=
  h.choose_spec.place_add

theorem At.place_append (h : At src k rest) (hr : rest = x ++ y) : place src rest + x.byteSize = place src y := by
  have hadd := h.place_add
  unfold place at hadd ⊢
  rw [hr, Text.byteSize_append] at hadd ⊢
  omega

/-- The tokens of the first part of `rest` are passed. -/
theorem Reaches.advance {lineStart' : Bool} (h : Reaches lineStart src k (x ++ y))
    (hts : tokenizeFrom lineStart (place src (x ++ y)) (x ++ y) =
      ts ++ tokenizeFrom lineStart' (place src (x ++ y) + x.byteSize) y) :
    Reaches lineStart' src (k + (ts.filter (!·.isTrivia)).length) y := by
  have hpl := At.place_append ⟨_, h⟩ rfl
  obtain ⟨us, hs, rfl⟩ := h
  refine ⟨us ++ ts, ?_, by simp⟩
  rw [hs, hts, hpl, append_assoc]

section

variable (h : Reaches lineStart src k rest)

include h

theorem Reaches.tokens : (ofText src).tokens.drop k = (tokenizeFrom lineStart (place src rest) rest).filter (!·.isTrivia) := by
  obtain ⟨us, hs, rfl⟩ := h
  rw [Fragment.tokens_ofText, hs, filter_append, drop_left]

theorem Reaches.tok? {t : Token} (hts : tokenizeFrom lineStart (place src rest) rest = t :: ts) (ht : t.isTrivia = false) :
    (ofText src).tok? k = some t := by
  have hd := h.tokens
  rw [hts, filter_cons_of_pos (by simp [ht])] at hd
  rw [Fragment.tok?, ← head?_drop, hd, head?_cons]

theorem Reaches.at : At src k rest :=
  ⟨lineStart, h⟩

end

theorem At.tok_nil (h : At src k []) : (ofText src).tok? k = none := by
  obtain ⟨lineStart, h⟩ := h
  rw [Fragment.tok?, ← head?_drop, h.tokens, tokenizeFrom]
  rfl

/-- A gap is passed without a significant token. -/
theorem Reaches.gap (h : Reaches false src k (g.text ++ rest)) (hr : Starts rest) : At src k rest := by
  have hts := tokenizeFrom_append (g.endsBefore (place src (g.text ++ rest)) hr)
  have hno : (tokenizeFrom false (place src (g.text ++ rest)) g.text).filter (!·.isTrivia) = [] :=
    filter_eq_nil_iff.2 fun t ht => by simp [g.isTrivia _ t ht]
  have hnx := h.advance hts
  rw [hno] at hnx
  exact hnx.at

/-- The first token of `rest`, a significant one, stands at `k`. -/
theorem At.first {kind : TokenKind} (h : At src k (x ++ y)) (hk : Token.isTrivia ⟨kind, x, 0⟩ = false)
    (hts : ∀ lineStart offset, tokenizeFrom lineStart offset (x ++ y) =
      ⟨kind, x, offset⟩ :: tokenizeFrom false (offset + x.byteSize) y) :
    (ofText src).tok? k = some ⟨kind, x, place src (x ++ y)⟩ ∧ Reaches false src (k + 1) y := by
  obtain ⟨lineStart, h⟩ := h
  have hsig : Token.isTrivia ⟨kind, x, place src (x ++ y)⟩ = false := hk
  refine ⟨h.tok? (hts lineStart _) hsig, ?_⟩
  have hnx := h.advance (show _ = [⟨kind, x, place src (x ++ y)⟩] ++ _ from hts lineStart _)
  rw [filter_cons_of_pos (by simp [hsig])] at hnx
  exact hnx

/-- A word that `rest` starts with. -/
theorem At.word {w : Word} (h : At src k (w.spelled ++ rest)) (hr : Starts rest)
    (hap : w.gap.text = [] → ∀ d, rest.head? = some d → continuesIdent d = false) :
    (ofText src).tok? k = some ⟨.ident, w.text, place src (w.spelled ++ rest)⟩ ∧ At src (k + 1) rest := by
  rw [Word.spelled, append_assoc] at h ⊢
  have hs : ∀ d, (w.gap.text ++ rest).head? = some d → continuesIdent d = false := by
    intro d hd
    cases hg : w.gap.text with
    | nil => exact hap hg d (by rwa [hg] at hd)
    | cons c g =>
      have hc : w.gap.text.head? = some d := by simpa [hg] using hd
      rcases w.gap.head hc with hd | rfl
      · simp only [isSpace, Bool.or_eq_true, beq_iff_eq] at hd
        rcases hd with (((rfl | rfl) | rfl) | rfl) | rfl <;> decide
      · decide
  obtain ⟨htok, hnx⟩ := h.first rfl (tokenizeFrom_name w.isName hs)
  exact ⟨htok, hnx.gap hr⟩

theorem At.tok_mark (h : At src k (c :: rest)) (hc : isMark c) (hcol : c = ':' → rest.head? ≠ some ':') :
    (ofText src).tok? k = some ⟨.punct, [c], place src (c :: rest)⟩ :=
  (At.first h rfl (tokenizeFrom_mark hc _ hcol)).1

/-- A mark that `rest` starts with. -/
theorem At.mark (h : At src k (c :: (g.text ++ rest))) (hc : isMark c)
    (hcol : c = ':' → (g.text ++ rest).head? ≠ some ':') (hr : Starts rest) :
    (ofText src).tok? k = some ⟨.punct, [c], place src (c :: (g.text ++ rest))⟩ ∧ At src (k + 1) rest := by
  obtain ⟨htok, hnx⟩ := At.first (x := [c]) h rfl (tokenizeFrom_mark hc _ hcol)
  exact ⟨htok, hnx.gap hr⟩

theorem At.colons (h : At src k (':' :: ':' :: (g.text ++ rest))) (hr : Starts rest) :
    (ofText src).tok? k = some ⟨.punct, "::", place src (':' :: ':' :: (g.text ++ rest))⟩ ∧ At src (k + 1) rest := by
  obtain ⟨htok, hnx⟩ := At.first (x := "::") h rfl (tokenizeFrom_colons (g.text ++ rest))
  exact ⟨htok, hnx.gap hr⟩

theorem opening_mark : ∃ c, b.opening = [c] ∧ isMark c ∧ c ≠ ':' := by
  cases b <;> exact ⟨_, rfl, by decide, by decide⟩

theorem closing_mark : ∃ c, b.closing = [c] ∧ isMark c ∧ c ≠ ':' ∧ divides c := by
  cases b <;> exact ⟨_, rfl, by decide, by decide, by decide⟩

/-- A group that `rest` starts with: where it is closed, and its tokens. -/
theorem At.group {x : Inner b} (h : At src k (b.opening ++ (x.text ++ (b.closing ++ rest)))) : (ofText src).tok? k =
        some ⟨.punct, b.opening, place src (b.opening ++ (x.text ++ (b.closing ++ rest)))⟩ ∧
      ∃ c, (ofText src).close? k = some c ∧ At src c (b.closing ++ rest) ∧
        ∃ offset, ((ofText src).tokens.drop (k + 1)).take (c - k - 1) = (significant x.text).map (shift offset) := by
  obtain ⟨o, ho, homark, hocolon⟩ := opening_mark
  obtain ⟨e, he, hemark, hecolon, hediv⟩ := closing_mark
  have hop : opened? ⟨.punct, b.opening, place src (b.opening ++ (x.text ++ (b.closing ++ rest)))⟩ = some b :=
    opened?_eq_some_iff.2 (by simp [isPunct])
  have hclo (offset : Nat) : closed? ⟨.punct, b.closing, offset⟩ = some b :=
    closed?_eq_some_iff.2 (by simp [isPunct])
  rw [ho, he] at h hop ⊢
  rw [he] at hclo
  obtain ⟨htok, hin⟩ := At.first h rfl (tokenizeFrom_mark homark _ fun h => absurd h hocolon)
  refine ⟨htok, ?_⟩
  have hts := hin.tokens
  have hspl := tokenizeFrom_append (x.endsBefore (place src (x.text ++ ([e] ++ rest))) hediv rest)
  have hcl (lineStart : Bool) (offset : Nat) :=
    tokenizeFrom_mark hemark rest (fun h => absurd h hecolon) lineStart offset
  rw [singleton_append] at hts hspl hin ⊢
  rw [hspl, hcl, filter_append, filter_cons_of_pos rfl] at hts
  have hlv := x.level (place src (x.text ++ e :: rest))
  refine ⟨_, ?_, (hin.advance hspl).at, place src (x.text ++ e :: rest), ?_⟩
  · have hk : (ofText src).tokens[k]? = some ⟨.punct, [o], _⟩ := htok
    simp only [Fragment.close?, matchingClose, hk, Option.bind_some, hop, hts]
    rw [closeWithin_of_level hlv (hclo _), Option.map_some, Nat.add_comm]
  · rw [hts]
    have hn : ∀ n, k + 1 + n - k - 1 = n := by omega
    rw [hn, take_left, filter_tokenizeFrom]

theorem At.braces {x : Inner .curly} (h : At src k ('\x7b' :: (x.text ++ '\x7d' :: rest))) :
    (ofText src).tok? k = some ⟨.punct, "\x7b", place src ('\x7b' :: (x.text ++ '\x7d' :: rest))⟩ ∧
      ∃ c, (ofText src).close? k = some c ∧ At src c ('\x7d' :: rest) := by
  obtain ⟨ho, c, hcl, hc, -⟩ := At.group (b := .curly) h
  exact ⟨ho, c, hcl, hc⟩

/-- The text between two marks. -/
theorem At.between {e : Char} {i j : Nat} (hi : At src i (c :: (x ++ e :: y))) (hc : isMark c)
    (hx : c = ':' → (x ++ e :: y).head? ≠ some ':') (hj : At src j (e :: y)) (he : isMark e)
    (hy : e = ':' → y.head? ≠ some ':') : (ofText src).between i j = x := by
  obtain ⟨lineStart, us, hus, rfl⟩ := hi
  obtain ⟨lineStart', vs, hvs, rfl⟩ := hj
  rw [tokenizeFrom_mark hc _ hx] at hus
  rw [tokenizeFrom_mark he _ hy] at hvs
  have hA := spelling_tokenizeFrom false (place src (c :: (x ++ e :: y)) + Text.byteSize [c]) (x ++ e :: y)
  have hB := spelling_tokenizeFrom false (place src (e :: y) + Text.byteSize [e]) y
  generalize tokenizeFrom false (place src (c :: (x ++ e :: y)) + Text.byteSize [c]) (x ++ e :: y) = as at hus hA
  generalize tokenizeFrom false (place src (e :: y) + Text.byteSize [e]) y = bs at hvs hB
  rcases append_eq_append_iff.1 (hus.symm.trans hvs) with ⟨ms, rfl, hms⟩ | ⟨ms, -, hms⟩
  · cases ms with
    | nil =>
      have hlen := congrArg (fun ts => (spelling ts).length) (List.cons.inj hms).2
      simp only [hA, hB, length_append, length_cons] at hlen
      omega
    | cons t ms =>
      rw [cons_append] at hms
      obtain ⟨rfl, rfl⟩ := List.cons.inj hms
      have hspl : spelling ms = x := by
        rw [spelling_append] at hA
        have htl : spelling (⟨.punct, [e], place src (e :: y)⟩ :: bs) = e :: y := by rw [← hB]; rfl
        rw [htl] at hA
        exact append_cancel_right hA
      have hbet := Fragment.between_eq hus rfl rfl
      rw [← hspl, ← hbet]
      congr 1
      simp [Token.isTrivia]
      omega
  · have hspl := congrArg (fun ts => (spelling ts).length) hms
    have hcn (t : Token) (ts : List Token) : (spelling (t :: ts)).length = t.text.length + (spelling ts).length := by
      simp [spelling]
    simp only [spelling_append, hcn, hA, hB, length_append, length_cons] at hspl
    omega

end Declass.Grammar
