import Declass.Proofs.Outline.Crossing

/-!
# Declarations of variables

A declaration is a list of tokens with trivia between them: the words of a type, declarators with dimensions and initializers, and a
`;`. A position of a source is given by the tokens from there on (`Rest`).
-/

namespace Declass

open Fragment List

namespace Variable

open Token

/-! ## The parts of a declaration -/

/-- A token of a given form with the trivia before it. -/
structure Led (p : Token → Bool) where
  lead : List Token := []
  token : Token
  isTrivia : ∀ t ∈ lead, t.isTrivia = true := by decide
  isSignificant : token.isTrivia = false := by decide
  isToken : p token = true := by decide

/-- A mark, with the trivia before it. -/
abbrev Mark (p : Text) : Type :=
  Led fun t => t.isPunct p

/-- A name that can be called and is no keyword of a construct. -/
def isOrdinary (t : Token) : Bool :=
  t.isIdent && !t.isWordOf Grammar.structuralWords && !Outline.notCallable.contains t.text

/-- A token of a type before its last word. -/
def isTypePart (t : Token) : Bool :=
  isOrdinary t || t.isPunct "::"

/-- A mark of a pointer or a reference. -/
def isPointer (t : Token) : Bool :=
  t.isPunctOf ["*", "&"]

/-- Tokens in brackets. The brackets of each kind balance among them. -/
structure Enclosed (b : Bracket) where
  opener : Mark b.opening
  inside : List Token
  closer : Token
  isCloser : closer.isPunct b.closing = true := by decide
  balanced : ∀ b' : Bracket, b'.level 0 inside = some 0 := by intro b'; cases b' <;> rfl

/-- Arguments in brackets. -/
structure Arguments (b : Bracket) extends Enclosed b where
  isText : Text.allBlank (spelling inside) = false := by decide

/-- The tokens without the trivia. -/
def significant (ts : List Token) : List Token :=
  ts.filter (!·.isTrivia)

/-- A call of `word`. -/
def isCallOf (word : Text) : List Token → Bool
  | t :: u :: _ => t.text == word && u.isPunct "("
  | _ => false

/-- A value after `=` for a variable of type `word`, not `word(...)`. -/
structure Value (word : Text) where
  tokens : List Token
  isText : Text.allBlank (spelling tokens) = false := by decide
  nonempty : significant tokens ≠ [] := by decide
  balanced : ∀ b : Bracket, b.level 0 tokens = some 0 := by intro b; cases b <;> rfl
  single : ∀ t ∈ outer 0 tokens, t.isPunctOf [";", ",", "\x7b", "\x7d"] = false := by decide
  notCall : isCallOf word (significant tokens) = false := by decide

/-- What a variable of type `word` is initialized with. -/
inductive Initializer (word : Text) where
  | round (args : Arguments .round)
  | curly (args : Arguments .curly)
  | equalsCurly (equal : Mark "=") (args : Arguments .curly)
  | equalsCall (equal : Mark "=") (type : Led fun t => isOrdinary t && t.text == word) (args : Arguments .round)
  | equals (equal : Mark "=") (value : Value word)

namespace Initializer

variable {word : Text}

def isRound : Initializer word → Bool
  | .round _ => true
  | _ => false

def isValue : Initializer word → Bool
  | .equals _ _ => true
  | _ => false

/-- The mark that the initializer starts with. -/
def mark : Initializer word → Text
  | .round _ => "("
  | .curly _ => "\x7b"
  | _ => "="

end Initializer

/-- A declarator of type `word`, with the trivia after it. Dimensions are inert unless a value is read ahead past them.
Arguments after the name could be parameters, so they need a type that is no builtin word and no dimensions. -/
structure Declarator (word : Text) where
  pointers : List (Led isPointer) := []
  name : Led isOrdinary
  fresh : name.token.text ≠ word := by decide
  dims : List (Enclosed .square) := []
  init : Option (Initializer word) := none
  gap : List Token := []
  isTrivia : ∀ t ∈ gap, t.isTrivia = true := by decide
  closed : init.any Initializer.isValue = true → gap = [] := by decide
  inert : init.any Initializer.isValue = false → ∀ g ∈ dims, Fragment.Inert (significant g.inside) := by decide
  direct : init.any Initializer.isRound = true → dims = [] ∧ word ∉ typeWords := by decide

/-- The declarators of a declaration up to its `;`. -/
inductive Declarators (word : Text) where
  | last (d : Declarator word) (semicolon : { t : Token // t.isPunct ";" = true })
  | more (d : Declarator word) (comma : { t : Token // t.isPunct "," = true }) (ds : Declarators word)

/-- A declaration of variables whose type ends with the word `last`. -/
structure Declaration where
  type : List (Led isTypePart)
  last : Led isOrdinary
  declarators : Declarators last.token.text

/-! ## What they are made of -/

def Led.tokens {p : Token → Bool} (m : Led p) : List Token :=
  m.lead ++ [m.token]

def Enclosed.tokens {b : Bracket} (g : Enclosed b) : List Token :=
  g.opener.tokens ++ (g.inside ++ [g.closer])

/-- The text in the brackets. -/
def Arguments.text {b : Bracket} (g : Arguments b) : Text :=
  (spelling g.inside).trim

def Initializer.tokens {word : Text} : Initializer word → List Token
  | .round args => args.tokens
  | .curly args => args.tokens
  | .equalsCurly equal args => equal.tokens ++ args.tokens
  | .equalsCall equal type args => equal.tokens ++ (type.tokens ++ args.tokens)
  | .equals equal value => equal.tokens ++ value.tokens

/-- The text of the arguments or of the value. -/
def Initializer.text {word : Text} : Initializer word → Text
  | .round args => args.text
  | .curly args => args.text
  | .equalsCurly _ args => args.text
  | .equalsCall _ _ args => args.text
  | .equals _ value => (spelling value.tokens).trim

def Declarator.tokens {word : Text} (d : Declarator word) : List Token :=
  d.pointers.flatMap Led.tokens ++
    (d.name.tokens ++ (d.dims.flatMap Enclosed.tokens ++ (d.init.elim [] Initializer.tokens ++ d.gap)))

/-- The initializer of the declared variable, if it has one. -/
def Declarator.global? {word : Text} (d : Declarator word) : Option GlobalInit :=
  d.init.map fun init => ⟨word, d.name.token.text, init.text⟩

namespace Declarators

variable {word : Text}

def tokens : Declarators word → List Token
  | .last d semicolon => d.tokens ++ [semicolon.val]
  | .more d comma ds => d.tokens ++ comma.val :: ds.tokens

/-- The initializers of the declared variables. -/
def globals : Declarators word → List GlobalInit
  | .last d _ => d.global?.toList
  | .more d _ ds => d.global?.toList ++ ds.globals

/-- The first of the declarators. -/
def first : Declarators word → Declarator word
  | .last d _ => d
  | .more d _ _ => d

end Declarators

/-- The tokens of a declaration, trivia included. -/
def Declaration.tokens (D : Declaration) : List Token :=
  D.type.flatMap Led.tokens ++ (D.last.tokens ++ D.declarators.tokens)

/-! ## Significant tokens -/

section Significant

variable {p : Token → Bool} {t : Token} {ps : List Text} {b : Bracket}

theorem significant_append (ts us : List Token) : significant (ts ++ us) = significant ts ++ significant us :=
  filter_append ts us

theorem significant_trivia {ts : List Token} (h : ∀ t ∈ ts, t.isTrivia) : significant ts = [] := by
  rw [significant, filter_eq_nil_iff]
  intro t ht
  simp [h t ht]

theorem significant_singleton (h : t.isTrivia = false) : significant [t] = [t] :=
  filter_cons_of_pos (by simp [h])

/-- Of a token and its trivia only the token counts. -/
@[simp]
theorem Led.significant_tokens (m : Led p) : significant m.tokens = [m.token] := by
  rw [tokens, significant_append, significant_trivia m.isTrivia, significant_singleton m.isSignificant, nil_append]

theorem significant_flatMap_led (ms : List (Led p)) : significant (ms.flatMap Led.tokens) = ms.map (·.token) := by
  induction ms with
  | nil => rfl
  | cons m ms ih => rw [flatMap_cons, significant_append, m.significant_tokens, ih, map_cons, singleton_append]

theorem isTrivia_of_isPunct {p : Text} (h : t.isPunct p) : t.isTrivia = false := by
  obtain ⟨start, rfl⟩ := eq_of_isPunct h
  rfl

theorem isTrivia_of_isPunctOf (h : t.isPunctOf ps) : t.isTrivia = false := by
  obtain ⟨p, -, hp⟩ := any_eq_true.1 h
  exact isTrivia_of_isPunct hp

theorem isPunctOf_of_isPunct {p : Text} (h : t.isPunct p) (hp : p ∉ ps) : t.isPunctOf ps = false := by
  obtain ⟨start, rfl⟩ := eq_of_isPunct h
  rw [isPunctOf, any_eq_false]
  intro p' hp' heq
  obtain rfl : p = p' := beq_iff_eq.1 (Bool.and_eq_true_iff.1 heq).2
  exact hp hp'

theorem isPunctOf_of_subset {ps' : List Text} (h : t.isPunctOf ps' = false) (hsub : ps ⊆ ps') : t.isPunctOf ps = false := by
  rw [isPunctOf, any_eq_false] at h ⊢
  exact fun p hp => h p (hsub hp)

/-- The significant tokens of a group are in its brackets. -/
@[simp]
theorem Enclosed.significant_tokens (g : Enclosed b) :
    significant g.tokens = g.opener.token :: (significant g.inside ++ [g.closer]) := by
  rw [tokens, significant_append, g.opener.significant_tokens, significant_append,
    significant_singleton (isTrivia_of_isPunct g.isCloser), singleton_append]

theorem Enclosed.length_significant (g : Enclosed b) : (significant g.tokens).length = 1 + (significant g.inside).length + 1 := by
  rw [g.significant_tokens, length_cons, length_append, length_singleton]
  omega

/-- Trivia changes no level. -/
theorem level_significant (b : Bracket) (n : Nat) (ts : List Token) : b.level n (significant ts) = b.level n ts :=
  level_filter b n ts

/-- What is outside brackets is so without trivia. -/
theorem outer_significant (depth : Nat) (ts : List Token) : outer depth (significant ts) ⊆ outer depth ts := by
  induction ts generalizing depth with
  | nil => exact .refl _
  | cons t ts ih =>
    by_cases ht : t.isTrivia
    · have hpun ps : t.isPunctOf ps = false := by
        rw [isPunctOf, any_eq_false]
        intro p _ hp
        rw [isTrivia_of_isPunct hp] at ht
        cases ht
      rw [significant, filter_cons_of_neg (by simp [ht])]
      exact Subset.trans (ih depth) (outer_subset_cons (hpun _) (hpun _))
    · rw [significant, filter_cons_of_pos (by simpa using ht), outer, outer]
      split
      · exact ih _
      split
      · exact ih _
      split
      · exact cons_subset_cons t (ih depth)
      · exact ih depth

end Significant

/-! ## Positions in a source -/

/-- The source goes on with these tokens, trivia before them or not. -/
def Rest (src : Text) (k : Nat) (ts : List Token) : Prop :=
  ∃ us, tokenize src = us ++ ts ∧ (significant us).length = k

namespace Rest

variable {src : Text} {k : Nat} {ts us : List Token} {p : Token → Bool} {b : Bracket} {t : Token}

/-- After some tokens the source goes on with the rest. -/
theorem drop (h : Rest src k (ts ++ us)) : Rest src (k + (significant ts).length) us := by
  obtain ⟨vs, hvs, rfl⟩ := h
  exact ⟨vs ++ ts, by rw [hvs, append_assoc], by rw [significant_append, length_append]⟩

theorem tokens (h : Rest src k ts) : (ofText src).tokens.drop k = significant ts := by
  obtain ⟨vs, hvs, rfl⟩ := h
  rw [tokens_ofText, hvs, filter_append, ← significant, drop_left, significant]

/-- The fragment shows the tokens that come next. -/
theorem shows (h : Rest src k (ts ++ us)) : (ofText src).Shows k (significant ts) :=
  ⟨significant us, by rw [h.tokens, significant_append]⟩

/-- Trivia does not count. -/
theorem skip (h : Rest src k (ts ++ us)) (hts : ∀ t ∈ ts, t.isTrivia) : Rest src k us := by
  have hd := h.drop
  rwa [significant_trivia hts] at hd

/-- The next token stands at `k`. -/
theorem tok? {m : Led p} (h : Rest src k (m.tokens ++ us)) : (ofText src).tok? k = some m.token := by
  have hsh := h.shows
  rw [m.significant_tokens] at hsh
  exact hsh.tok?

/-- A group starts with its opening bracket. -/
theorem opener {g : Enclosed b} (h : Rest src k (g.tokens ++ us)) : (ofText src).isPunct k b.opening := by
  have hsh := h.shows
  rw [g.significant_tokens] at hsh
  rw [isPunct_of_tok? hsh.tok?]
  exact g.opener.isToken

theorem mark {w : Text} {m : Mark w} (h : Rest src k (m.tokens ++ us)) : (ofText src).isPunct k w := by
  rw [isPunct_of_tok? h.tok?]
  exact m.isToken

theorem head (h : Rest src k (t :: us)) (ht : t.isTrivia = false) : (ofText src).tok? k = some t := by
  have hts := h.tokens
  rw [significant, filter_cons_of_pos (by simp [ht])] at hts
  exact Shows.tok? ⟨[], by rw [hts, append_nil]⟩

theorem tail (h : Rest src k (t :: us)) (ht : t.isTrivia = false) : Rest src (k + 1) us := by
  have h' : Rest src k ([t] ++ us) := h
  have hd := h'.drop
  rwa [significant_singleton ht] at hd

theorem next {m : Led p} (h : Rest src k (m.tokens ++ us)) : Rest src (k + 1) us := by
  have hnx := h.drop
  rwa [m.significant_tokens] at hnx

/-- A group ends where it is closed. -/
theorem close? {g : Enclosed b} (h : Rest src k (g.tokens ++ us)) :
    (ofText src).close? k = some (k + 1 + (significant g.inside).length) := by
  have hsh := h.shows
  rw [g.significant_tokens] at hsh
  exact hsh.close? g.opener.isToken g.isCloser (by rw [level_significant]; exact g.balanced b)

/-- The text between two tokens. -/
theorem between {m : Led p} {u : Token} (h : Rest src k (m.tokens ++ (ts ++ u :: us))) (hu : u.isTrivia = false) :
    (ofText src).between k (k + 1 + (significant ts).length) = spelling ts := by
  obtain ⟨vs, hvs, rfl⟩ := h
  have hle : significant (vs ++ m.lead) = significant vs := by
    rw [significant_append, significant_trivia m.isTrivia, append_nil]
  have hspl : tokenize src = (vs ++ m.lead) ++ m.token :: (ts ++ u :: us) := by
    rw [hvs, Led.tokens]
    simp
  have hbet := between_eq hspl m.isSignificant hu
  simp only [← significant.eq_1, hle] at hbet
  exact hbet

/-- The text of the arguments in a group. -/
theorem text {args : Arguments b} (h : Rest src k (args.tokens ++ us)) :
    ((ofText src).between k (k + 1 + (significant args.inside).length)).trim = args.text ∧ args.text ≠ [] := by
  have hspl : args.tokens ++ us = args.opener.tokens ++ (args.inside ++ args.closer :: us) := by
    simp [Enclosed.tokens]
  rw [hspl] at h
  have hemp : args.text.isEmpty = false := by
    rw [Arguments.text, Text.isEmpty_trim, args.isText]
  exact ⟨by rw [h.between (isTrivia_of_isPunct args.isCloser), Arguments.text], isEmpty_eq_false_iff.1 hemp⟩

end Rest

end Variable

end Declass
