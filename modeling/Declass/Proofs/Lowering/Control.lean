import Declass.Proofs.Lowering.Boundary

/-!
# Locals that a head declares

A local declared in the head of a `for`, a `while` or an `if` is visible to the end of the first block after the head, or to the
first `;` (`Fragment.OpenEnds`). When this is the end of the controlled statement is said by `HeadStatement.exists_local`.
-/

namespace Declass

open Declass.Bracket FoundLocal Fragment List Lowering
open Option (bind_eq_bind bind_some getD_some map_some)

namespace Token

/-! ## Nested tokens -/

variable {b : Bracket} {o c t : Token} {ts us : List Token}

theorem Nested.append (hts : Nested ts) (hus : Nested us) : Nested (ts ++ us) := by
  rw [Nested] at hts hus ⊢
  rw [passAll_append, hts]
  exact hus

theorem Nested.cons (ht : opened? t = none ∧ closed? t = none) (h : Nested ts) : Nested (t :: ts) := by
  rw [Nested, passAll, pass_of_none ht.1 ht.2]
  exact h

theorem nested_of_plain (h : ∀ t ∈ ts, opened? t = none ∧ closed? t = none) : Nested ts := by
  induction ts with
  | nil => rfl
  | cons t ts ih => exact (ih fun u hu => h u (mem_cons_of_mem t hu)).cons (h t mem_cons_self)

theorem Nested.group (h : Nested ts) (ho : opened? o = some b) (hc : closed? c = some b) : Nested (o :: (ts ++ [c])) := by
  have hins : passAll [b] ts = some [b] := passAll_around h [b]
  have hcl : pass [b] c = some [] := by rw [pass_of_closed? hc, close, if_pos rfl]
  rw [Nested, passAll, pass_of_opened? ho, bind_some, passAll_append, hins, bind_some, passAll, hcl]
  rfl

theorem Nested.level (h : Nested ts) (b : Bracket) (n : Nat) : b.level n ts = some n := by
  have hlv := level_of_passAll (b := b) (passAll_around h (replicate n b))
  rwa [nil_append, count_replicate_self] at hlv

def isSemicolon (t : Token) : Bool :=
  t.isPunct ";"

theorem plain_ofName (w : Text) : opened? (ofName w) = none ∧ closed? (ofName w) = none :=
  plain_of_isIdent rfl

end Token

open Token

namespace Fragment

/-! ## Blocks -/

variable {F : Fragment} {env : TypeEnv} {A B : List Token} {e : Token} {ends : List Nat} {k n : Nat}

/-- `ends` are the ends of the blocks open at `k`, innermost first. -/
def OpenEnds (F : Fragment) (ends : List Nat) (k : Nat) : Prop :=
  ∀ i e, ends[i]? = some e → e = ((closeWithin .curly i (F.tokens.drop k)).map (· + k)).getD F.size

/-- Tokens that open and close no block change no ends. -/
theorem OpenEnds.skip (h : F.OpenEnds ends k) (hn : n ≤ (F.tokens.drop k).length)
    (hlv : ∀ i, curly.level i ((F.tokens.drop k).take n) = some i) : F.OpenEnds ends (k + n) := by
  intro i e he
  rw [h i e he, ← take_append_drop n (F.tokens.drop k), closeWithin_append_of_level (hlv i), length_take_of_le hn, drop_drop]
  simp only [Option.map_map, Function.comp_def, add_assoc, add_comm n k]

theorem OpenEnds.step {t : Token} {ts : List Token} (h : F.OpenEnds ends k) (ht : F.tokens.drop k = t :: ts) :
    F.OpenEnds (F.blockEnds ends k t) (k + 1) := by
  have hts : F.tokens.drop (k + 1) = ts := by rw [← drop_drop, ht]; rfl
  have hsh (o : Option Nat) : (o.map (· + 1)).map (· + k) = o.map (· + (k + 1)) := by
    simp only [Option.map_map, Function.comp_def, add_assoc, add_comm 1 k]
  have hop : opened? t = some .curly ↔ t.isPunct "\x7b" := opened?_eq_some_iff
  have hcl : closed? t = some .curly ↔ t.isPunct "\x7d" := closed?_eq_some_iff
  unfold blockEnds
  intro i e he
  rw [hts]
  split at he
  next ho =>
    cases i with
    | zero =>
      cases he
      have hk : F.tokens[k]? = some t := (GoesOn.tok?_of_drop ht).2
      rw [close?, matchingClose, hk, bind_some, hop.2 ho, hts]
    | succ i => rw [h i e he, ht, closeWithin_cons, if_pos (hop.2 ho), hsh]
  next ho =>
    split at he
    next hc =>
      rw [getElem?_tail] at he
      rw [h _ e he, ht, closeWithin_cons, if_neg (mt hop.1 ho), if_pos (hcl.2 hc), if_neg (Nat.succ_ne_zero i), hsh]
      rfl
    next hc => rw [h i e he, ht, closeWithin_cons, if_neg (mt hop.1 ho), if_neg (mt hcl.1 hc), hsh]

/-- A declaration ends before a token that a declaration can follow. -/
theorem size_le_of_canFollow {d : FoundLocal} (he : canFollow e) (h : at? env (A ++ e :: B) = some d) : d.size ≤ A.length := by
  by_contra hlt
  have hmem : e ∈ (A ++ e :: B).take d.size := by
    rw [take_append, mem_append]
    right
    obtain ⟨n, hn⟩ : ∃ n, d.size - A.length = n + 1 := ⟨d.size - A.length - 1, by omega⟩
    rw [hn]
    exact mem_cons_self
  have hid : e.isIdent = false := by
    obtain ⟨p, -, hp⟩ := any_eq_true.1 he
    have hk : e.kind = .punct := eq_of_beq (Bool.and_eq_true _ _ ▸ hp).1
    simp [Token.isIdent, hk]
  rcases (GoesOn.at?_spec h).2.2 e hmem with hwd | hpt
  · obtain ⟨w, -, hw⟩ := any_eq_true.1 hwd
    rw [isWord, hid] at hw
    cases hw
  · rw [isPart, hid] at hpt
    obtain ⟨p, hp, hpp⟩ := any_eq_true.1 he
    obtain ⟨q, hq, hqq⟩ := any_eq_true.1 hpt
    rw [isPunct_iff] at hpp hqq
    obtain rfl : p = q := hpp.2.symm.trans hqq.2
    clear hpp hqq
    revert p
    decide

/-- After a token that a declaration can follow, the walk starts anew. -/
theorem blockLocalsFrom_append (he : canFollow e) (start : Bool) (hen : F.OpenEnds ends k)
    (hts : F.tokens.drop k = A ++ e :: B) : ∃ ls ends', F.blockLocalsFrom env start ends k (A ++ e :: B) =
        ls ++ F.blockLocalsFrom env true ends' (k + A.length + 1) B ∧ F.OpenEnds ends' (k + A.length + 1) := by
  generalize hall : A ++ e :: B = all at hts ⊢
  induction start, ends, k, all using blockLocalsFrom.induct F env generalizing A with
  | case1 start ends k => simp at hall
  | case2 start ends k t ts d hd ih =>
    have hat := (Option.ite_none_right_eq_some.1 hd).2
    obtain ⟨hpos, hlt, -⟩ := GoesOn.at?_spec hat
    have hle : d.size ≤ A.length := size_le_of_canFollow he (hall ▸ hat)
    have hdr := GoesOn.drop_size hat
    have hsk : F.OpenEnds ends (k + d.size) := by
      refine hen.skip (by rw [hts]; omega) fun i => ?_
      rw [hts]
      exact GoesOn.level_at? hat .curly i
    obtain ⟨ls, ends', heq, he'⟩ := ih hsk
      (by rw [hdr, ← hall, drop_append_of_le_length hle]) (by rw [← drop_drop, hts, hdr])
    have hpos' : k + d.size + (A.drop d.size).length = k + A.length := by
      rw [length_drop]
      omega
    rw [hpos'] at heq he'
    rw [blockLocalsFrom_of_some hd, heq]
    exact ⟨_ :: ls, ends', rfl, he'⟩
  | case3 start ends k t ts hno ih =>
    rw [blockLocalsFrom_of_none hno]
    cases A with
    | nil =>
      cases hall
      rw [he]
      exact ⟨[], _, rfl, hen.step hts⟩
    | cons a A =>
      cases hall
      obtain ⟨ls, ends', heq, he'⟩ := ih (hen.step hts) rfl (by rw [← drop_drop, hts]; rfl)
      have hpos : k + 1 + A.length = k + (t :: A).length := by
        rw [length_cons]
        omega
      rw [hpos] at heq he'
      exact ⟨ls, ends', heq, he'⟩

end Fragment

/-! ## Statements -/

/-- A statement, by its significant tokens. -/
inductive Statement where
  /-- `{ ts }` -/
  | block (ts : List Token) (nested : Nested ts)
  /-- `ts ;` -/
  | simple (ts : List Token) (nested : Nested ts) (plain : ∀ t ∈ ts, t.isSemicolon = false)
    (isNoBlock : ts.head?.any (·.isPunct "\x7b") = false)
  /-- `word ( head ) body`, such as a loop or an `if` without `else` -/
  | control (word : Text) (head : List Token) (nested : Nested head) (body : Statement)
  /-- `if ( head ) yes else no` -/
  | branch (head : List Token) (nested : Nested head) (yes no : Statement)

namespace Statement

/-- The tokens of a head in parentheses with what follows it. -/
def headed (word : Text) (head body : List Token) : List Token :=
  ofName word :: ofMark "(" :: (head ++ ofMark ")" :: body)

def tokens : Statement → List Token
  | block ts _ => ofMark "\x7b" :: (ts ++ [ofMark "\x7d"])
  | simple ts _ _ _ => ts ++ [ofMark ";"]
  | control word head _ body => headed word head body.tokens
  | branch head _ yes no => headed "if" head (yes.tokens ++ ofName "else" :: no.tokens)

def isBlock : Statement → Bool
  | block _ _ => true
  | _ => false

theorem nested_headed {word : Text} {head body : List Token} (hh : Nested head) (hb : Nested body) :
    Nested (headed word head body) := by
  have hg := (hh.group (o := ofMark "(") (c := ofMark ")") rfl rfl).append hb
  rw [cons_append, append_assoc] at hg
  exact hg.cons (plain_ofName word)

theorem nested_tokens (S : Statement) : Nested S.tokens := by
  induction S with
  | block ts nested => exact nested.group rfl rfl
  | simple ts nested plain isNoBlock => exact nested.append (nested_of_plain (by decide))
  | control word head nested body ih => exact nested_headed nested ih
  | branch head nested yes no ihYes ihNo => exact nested_headed nested (ihYes.append (ihNo.cons (plain_ofName "else")))

theorem head?_tokens (S : Statement) : ∃ t ts, S.tokens = t :: ts ∧ t.isPunct "\x7b" = S.isBlock := by
  cases S with
  | block ts nested => exact ⟨_, _, rfl, rfl⟩
  | simple ts nested plain isNoBlock =>
    cases ts with
    | nil => exact ⟨_, _, rfl, rfl⟩
    | cons t ts => exact ⟨t, _, rfl, isNoBlock⟩
  | control | branch => exact ⟨_, _, rfl, rfl⟩

end Statement

/-- A declaration of a local up to its name, with a type that is known. -/
structure HeadDeclaration (env : TypeEnv) where
  words : List Token
  first : Token
  more : List Token
  name : Text
  isWord : ∀ t ∈ words, t.isWordOf declWords = true
  isPart : ∀ t ∈ first :: more, FoundLocal.isPart t = true
  isFirst : first.isWordOf declWords = false ∧ first.isWordOf statementWords = false
  isKnown : isKnown env (joined (first :: more)) = true
  isName : Tag.ofSpelling name = .other

namespace HeadDeclaration

variable {env : TypeEnv} (D : HeadDeclaration env)

/-- The tokens of the type, with the name. -/
def parts : List Token :=
  (D.first :: D.more) ++ [ofName D.name]

def tokens : List Token :=
  D.words ++ D.parts

theorem nested_tokens : Nested D.tokens := by
  refine nested_of_plain fun t ht => ?_
  rcases mem_append.1 ht with hw | hp
  · exact GoesOn.plain_of_isWordOf (D.isWord t hw)
  rcases mem_append.1 hp with hp | hn
  · exact GoesOn.plain_of_isPart (D.isPart t hp)
  · obtain rfl := mem_singleton.1 hn
    exact plain_ofName _

/-- The declaration is found before a `=`. -/
theorem at?_tokens (us : List Token) : at? env (D.tokens ++ ofMark "=" :: us) =
      some { name := D.name, type := joined (D.first :: D.more), size := D.tokens.length } := by
  have hwords : (D.tokens ++ ofMark "=" :: us).takeWhile (·.isWordOf declWords) = D.words := by
    rw [tokens, append_assoc, takeWhile_append_of_pos D.isWord, parts, append_assoc, cons_append,
      takeWhile_cons_of_neg (by rw [D.isFirst.1]; exact Bool.false_ne_true), append_nil]
  have hd : (D.tokens ++ ofMark "=" :: us).drop D.words.length = D.parts ++ ofMark "=" :: us := by
    rw [tokens, append_assoc, drop_left]
  have hps : (D.parts ++ ofMark "=" :: us).takeWhile FoundLocal.isPart = D.parts := by
    have hall : ∀ t ∈ D.parts, FoundLocal.isPart t := by
      intro t ht
      rcases mem_append.1 ht with hp | hn
      · exact D.isPart t hp
      · obtain rfl := mem_singleton.1 hn
        rfl
    rw [takeWhile_append_of_pos hall, takeWhile_cons_of_neg (by decide), append_nil]
  have hnx : (D.tokens ++ ofMark "=" :: us)[D.words.length + D.parts.length]? = some (ofMark "=") := by
    rw [← length_append]
    exact Bracketed.getElem?_middle rfl
  have hl : D.parts.getLast? = some (ofName D.name) := by rw [parts, getLast?_concat]
  have hi : D.parts.dropLast = D.first :: D.more := by rw [parts, dropLast_concat]
  unfold at?
  simp only [hwords, hd, hps, hnx, hl, hi, bind_eq_bind, bind_some, head?_cons,
    D.isFirst.2, isKnown, guard]
  have hn : (decide (Tag.ofSpelling (ofName D.name).text = .other) && true) := by
    rw [show (ofName D.name).text = D.name from rfl, isName]
    rfl
  rw [if_pos hn, tokens, length_append]
  rfl

end HeadDeclaration

/-- A statement whose head declares a local, `word ( words type name = rest ) body`. -/
structure HeadStatement (env : TypeEnv) where
  word : Text
  declared : HeadDeclaration env
  rest : List Token
  nested : Nested rest
  body : Statement
  otherwise : Option Statement

namespace HeadStatement

variable {env : TypeEnv} (S : HeadStatement env)

/-- What stands in the parentheses. -/
def head : List Token :=
  S.declared.tokens ++ ofMark "=" :: S.rest

/-- What stands after the parentheses. -/
def controlled : List Token :=
  S.body.tokens ++ S.otherwise.elim [] fun no => ofName "else" :: no.tokens

def tokens : List Token :=
  Statement.headed S.word S.head S.controlled

/-- The position of the name among the tokens. -/
def nameAt : Nat :=
  S.declared.tokens.length + 1

/-- The number of `;` after the head. -/
def semicolons : Nat :=
  S.controlled.countP isSemicolon

/-- The statement is a block without an `else`, or its only `;` is at its end. -/
def isExact : Bool :=
  if S.body.isBlock then S.otherwise.isNone else S.semicolons == 1 && S.controlled.getLast?.any isSemicolon

/-- The statement is a block without an `else`, or has no `;` before its end. -/
def isCovered : Bool :=
  S.isExact || !S.body.isBlock && S.semicolons == 0

theorem nested_head : Nested S.head :=
  S.declared.nested_tokens.append (S.nested.cons (by decide))

theorem nested_controlled : Nested S.controlled := by
  refine S.body.nested_tokens.append ?_
  cases S.otherwise with
  | none => rfl
  | some no => exact no.nested_tokens.cons (plain_ofName "else")

variable {F : Fragment} {before after : List Token}

/-- The first that satisfies `p` is the last just if it alone does. -/
theorem exists_findIdx?_of_countP {α : Type} {p : α → Bool} {xs : List α} (h : xs.countP p ≠ 0) :
    ∃ i, xs.findIdx? p = some i ∧ i < xs.length ∧ (i + 1 = xs.length ↔ xs.countP p = 1 ∧ xs.getLast?.any p) := by
  induction xs with
  | nil => exact absurd rfl h
  | cons x xs ih =>
    rw [findIdx?_cons]
    by_cases hx : p x
    · refine ⟨0, if_pos hx, Nat.succ_pos _, ?_⟩
      rw [countP_cons_of_pos hx]
      rcases eq_nil_or_concat xs with rfl | ⟨ys, y, rfl⟩
      · simp [hx]
      · simp only [concat_eq_append, length_cons, length_append, countP_append,
          getLast?_cons, getLast?_concat, getD_some, Option.any_some]
        constructor
        · omega
        · rintro ⟨hcnt, hy⟩
          rw [countP_cons_of_pos hy] at hcnt
          omega
    · rw [countP_cons_of_neg hx] at h ⊢
      obtain ⟨i, hi, hlt, hiff⟩ := ih h
      refine ⟨i + 1, by rw [if_neg hx, hi]; rfl, Nat.succ_lt_succ hlt, ?_⟩
      have hl : (x :: xs).getLast? = xs.getLast? := by
        cases xs with
        | nil => exact absurd rfl h
        | cons y ys => rw [getLast?_cons_cons]
      rw [hl, ← hiff, length_cons, add_right_cancel_iff]

/-- The position of the controlled statement among the tokens. -/
def bodyAt : Nat :=
  S.head.length + 3

theorem length_tokens : S.tokens.length = S.bodyAt + S.controlled.length := by
  simp only [tokens, Statement.headed, bodyAt, length_cons, length_append]
  omega

section

variable (h : F.tokens = before ++ S.tokens ++ after)
include h

theorem drop_head : F.tokens.drop (before.length + 2) = S.head ++ ofMark ")" :: (S.controlled ++ after) := by
  rw [h, tokens, Statement.headed]
  simp

theorem drop_controlled : F.tokens.drop (before.length + S.bodyAt) = S.controlled ++ after := by
  have hspl : before.length + S.bodyAt = before.length + 2 + (S.head.length + 1) := by
    rw [bodyAt]
    omega
  rw [hspl, ← drop_drop, S.drop_head h, drop_length_add_append]
  rfl

theorem tok?_paren : F.tok? (before.length + 1) = some (ofMark "(") := by
  rw [tok?, h, append_assoc, getElem?_append_right (Nat.le_add_right _ _), Nat.add_sub_cancel_left]
  rfl

theorem close?_head : F.close? (before.length + 1) = some (before.length + S.head.length + 2) := by
  refine close?_eq_some_iff.2 ⟨.round, _, S.head.length, S.tok?_paren h, rfl, ?_, by omega⟩
  rw [S.drop_head h]
  exact closeWithin_of_level (S.nested_head.level .round 0) rfl

theorem isPunct_controlled : F.isPunct (before.length + S.bodyAt) "\x7b" = S.body.isBlock := by
  obtain ⟨t, ts, hts, hblk⟩ := S.body.head?_tokens
  have hd := S.drop_controlled h
  rw [controlled, hts] at hd
  rw [Fragment.isPunct, (GoesOn.tok?_of_drop hd).2]
  exact hblk

/-- The statement is taken to end with its first block, else with its first `;`. -/
theorem statementEnd?_eq : F.statementEnd? (before.length + 1) = (if S.body.isBlock then some S.body.tokens.length else
        ((S.controlled ++ after).findIdx? isSemicolon).map (· + 1)).map (before.length + S.bodyAt + ·) := by
  have hb : before.length + S.head.length + 2 + 1 = before.length + S.bodyAt := by
    rw [bodyAt]
    omega
  rw [statementEnd?, S.close?_head h, bind_eq_bind, bind_some]
  dsimp only
  rw [hb, S.isPunct_controlled h]
  have hd := S.drop_controlled h
  split
  next hblk =>
    cases hS : S.body with
    | block ts nested =>
      rw [controlled, hS, Statement.tokens, append_assoc, cons_append, append_assoc] at hd
      have hcl : F.close? (before.length + S.bodyAt) = some (ts.length + (before.length + S.bodyAt + 1)) := by
        refine close?_eq_some_iff.2 ⟨.curly, _, ts.length, (GoesOn.tok?_of_drop hd).2, rfl, ?_, rfl⟩
        rw [← drop_drop, hd]
        exact closeWithin_of_level (nested.level .curly 0) rfl
      rw [hcl, map_some, map_some, Statement.tokens]
      simp only [length_cons, length_append, length_nil]
      congr 1
      omega
    | simple | control | branch =>
      rw [hS] at hblk
      cases hblk
  next =>
    have hse : (fun t : Token => t.isPunctOf [";"]) = isSemicolon := by
      funext t
      exact Bool.or_false _
    rw [findPunct?, hd, hse, Option.map_map, Option.map_map]
    congr 1
    funext n
    simp only [Function.comp_apply]
    omega

/-- The block around a statement ends after it. -/
theorem le_blockEnd {ends : List Nat} (he : F.OpenEnds ends (before.length + 2)) :
    before.length + S.tokens.length ≤ ends.head?.getD F.size := by
  have hsz : before.length + S.tokens.length ≤ F.size := by
    rw [Fragment.size, h, length_append, length_append]
    exact Nat.le_add_right _ _
  cases ends with
  | nil => exact hsz
  | cons e es =>
    have hlv : curly.level 0 (S.head ++ ofMark ")" :: S.controlled) = some 0 := by
      rw [level_append, S.nested_head.level]
      exact S.nested_controlled.level .curly 0
    rw [head?_cons, he 0 e rfl, S.drop_head h, ← cons_append, ← append_assoc, closeWithin_append_of_level hlv]
    cases closeWithin .curly 0 after with
    | none => exact hsz
    | some n =>
      simp only [map_some, getD_some, length_tokens, bodyAt, length_append, length_cons]
      omega

end

/-- A block or a `;` stands after the head. -/
def isFollowed (after : List Token) : Bool :=
  S.body.isBlock || (S.controlled ++ after).any isSemicolon

/-- Where the local of the head, visible up to `stop`, goes. -/
structure Reaches (before after : List Token) (stop : Nat) : Prop where
  covered : before.length + S.tokens.length ≤ stop ↔ S.isCovered = true
  exact : S.isFollowed after = true → (stop = before.length + S.tokens.length ↔ S.isExact = true)

theorem reaches_of_isBlock (hblk : S.body.isBlock) :
    S.Reaches before after (before.length + S.bodyAt + S.body.tokens.length) := by
  have hex : S.isExact = S.otherwise.isNone := by simp [isExact, hblk]
  have hcov : S.isCovered = S.otherwise.isNone := by simp [isCovered, isExact, hblk]
  have hlen := S.length_tokens
  cases hno : S.otherwise with
  | none =>
    have hcontrolled : S.controlled.length = S.body.tokens.length := by rw [controlled, hno, Option.elim_none, append_nil]
    rw [hno] at hex hcov
    exact ⟨⟨fun _ => hcov, fun _ => by omega⟩, fun _ => ⟨fun _ => hex, fun _ => by omega⟩⟩
  | some no =>
    have hcontrolled : S.controlled.length = S.body.tokens.length + (no.tokens.length + 1) := by
      rw [controlled, hno, Option.elim_some, length_append, length_cons]
    rw [hno] at hex hcov
    refine ⟨⟨fun hle => by omega, fun h => ?_⟩, fun _ => ⟨fun heq => by omega, fun h => ?_⟩⟩
    · rw [hcov] at h
      cases h
    · rw [hex] at h
      cases h

theorem isExact_iff (hblk : S.body.isBlock = false) : S.isExact ↔ S.semicolons = 1 ∧ S.controlled.getLast?.any isSemicolon := by
  simp [isExact, hblk]

theorem isCovered_iff (hblk : S.body.isBlock = false) : S.isCovered ↔ S.isExact ∨ S.semicolons = 0 := by
  simp [isCovered, hblk]

/-- Without a block, the local is visible up to the first `;`. -/
theorem reaches_of_findIdx? (hblk : S.body.isBlock = false) {i : Nat}
    (hi : (S.controlled ++ after).findIdx? isSemicolon = some i) :
    S.Reaches before after (before.length + S.bodyAt + (i + 1)) := by
  have hlen := S.length_tokens
  have hex := S.isExact_iff hblk
  have hcov := S.isCovered_iff hblk
  rw [findIdx?_append] at hi
  by_cases hz : S.semicolons = 0
  · have hno : S.controlled.findIdx? isSemicolon = none := by
      rw [findIdx?_eq_none_iff]
      intro t ht
      exact Bool.eq_false_iff.2 (countP_eq_zero.1 hz t ht)
    rw [hno] at hi
    obtain ⟨j, -, rfl⟩ := Option.map_eq_some_iff.1 hi
    refine ⟨⟨fun _ => hcov.2 (.inr hz), fun _ => by omega⟩, fun _ => ⟨fun heq => by omega, fun h => ?_⟩⟩
    have := (hex.1 h).1
    omega
  · obtain ⟨j, hj, hlt, hiff⟩ := exists_findIdx?_of_countP hz
    rw [hj] at hi
    cases hi
    rw [← semicolons, ← hex] at hiff
    refine ⟨?_, fun _ => ?_⟩
    · rw [hcov, ← hiff]
      omega
    · rw [← hiff]
      omega

/-- Without a block or a `;` the local is visible to the end of the block around. -/
theorem reaches_of_not_isFollowed (hfol : S.isFollowed after = false) {stop : Nat}
    (hs : before.length + S.tokens.length ≤ stop) : S.Reaches before after stop := by
  have hnot := hfol
  rw [isFollowed, Bool.or_eq_false_iff, any_append, Bool.or_eq_false_iff, any_eq_false] at hnot
  have hz : S.semicolons = 0 := countP_eq_zero.2 hnot.2.1
  refine ⟨⟨fun _ => (S.isCovered_iff hnot.1).2 (.inr hz), fun _ => hs⟩, fun h => ?_⟩
  rw [hfol] at h
  cases h

theorem exists_local_of_tokens (h : F.tokens = before ++ S.tokens ++ after) :
    ∃ l ∈ F.blockLocals env, l.name = S.declared.name ∧ l.first = before.length + S.nameAt ∧ S.Reaches before after l.stop := by
  have hspl : F.tokens = (before ++ [ofName S.word]) ++ ofMark "(" :: (S.head ++ ofMark ")" :: (S.controlled ++ after)) := by
    rw [h, tokens, Statement.headed]
    simp
  have hfol : canFollow (ofMark "(") := rfl
  have hnil : F.OpenEnds [] 0 := fun _ _ h => by cases h
  obtain ⟨ls, ends, hls, he⟩ := blockLocalsFrom_append hfol true hnil (by rw [drop_zero]; exact hspl)
  have hpos : 0 + (before ++ [ofName S.word]).length + 1 = before.length + 2 := by
    rw [length_append, length_singleton]
    omega
  rw [hpos] at hls he
  have hat : at? env (S.head ++ ofMark ")" :: (S.controlled ++ after)) = some
      { name := S.declared.name, type := joined (S.declared.first :: S.declared.more), size := S.declared.tokens.length } := by
    rw [head, append_assoc]
    exact S.declared.at?_tokens _
  have hs : F.localStop ends (before.length + 2) = (F.statementEnd? (before.length + 1)).getD (ends.head?.getD F.size) := by
    have hpar : F.isPunct (before.length + 2 - 1) "(" := by
      rw [Fragment.isPunct, show before.length + 2 - 1 = before.length + 1 from rfl, S.tok?_paren h]
      decide
    rw [localStop, hpar]
    rfl
  have hreach : S.Reaches before after (F.localStop ends (before.length + 2)) := by
    rw [hs, S.statementEnd?_eq h]
    cases hblk : S.body.isBlock with
    | true => exact S.reaches_of_isBlock hblk
    | false =>
      cases hi : (S.controlled ++ after).findIdx? isSemicolon with
      | some i => exact S.reaches_of_findIdx? hblk hi
      | none =>
        have hno : (S.controlled ++ after).any isSemicolon = false := by rw [← findIdx?_isSome, hi]; rfl
        exact S.reaches_of_not_isFollowed (by rw [isFollowed, hblk, hno]; rfl) (S.le_blockEnd h he)
  refine ⟨{ name := S.declared.name, type := joined (S.declared.first :: S.declared.more),
            first := before.length + 2 + S.declared.tokens.length - 1, stop := F.localStop ends (before.length + 2) },
    ?_, rfl, ?_, hreach⟩
  · rw [blockLocals, hspl, hls, mem_append]
    right
    generalize hall : S.head ++ ofMark ")" :: (S.controlled ++ after) = all at hat ⊢
    cases all with
    | nil => simp at hall
    | cons t ts =>
      rw [blockLocalsFrom_of_some (by rw [if_pos rfl]; exact hat)]
      exact mem_cons_self
  · rw [nameAt]
    dsimp only
    omega

/-- A local of a head is visible from its name to the first block's end or `;`. -/
theorem exists_local (h : F.tokens.map Token.bare = before ++ S.tokens ++ after) :
    ∃ l ∈ F.blockLocals env, l.name = S.declared.name ∧ l.first = before.length + S.nameAt ∧ S.Reaches before after l.stop := by
  have hlocal := S.exists_local_of_tokens (F := ⟨[], before ++ S.tokens ++ after⟩) rfl
  have hb : F.tokens.map bare = (before ++ S.tokens ++ after).map bare := by
    rw [← h, map_map]
    rfl
  rwa [← blockLocals_congr hb] at hlocal

end HeadStatement

end Declass
