import Declass.Output.Batch
import Declass.Proofs.Lowering.Initializer
import Declass.Proofs.Output.Document

/-!
# Generated texts

Names, types, values, directives and banners of a generated file, each of which closes what it opens.
-/

namespace Declass

open List Scan Text Token
open CType (ofSpelling)
open Spelling (dimensions?)
open TypeCategory (ofBase)

namespace Text

theorem contains_cons (c : Char) (t sub : Text) : contains (c :: t) sub = (startsWith (c :: t) sub || contains t sub) := by
  unfold contains startsWith
  rw [cut?]
  cases after? sub (c :: t) with
  | none => simp
  | some rest => rfl

end Text

namespace Scan

/-! ## Words and numerals -/

/-- Digits are read as one number. -/
theorem run_digits {t : Text} (h : ∀ c ∈ t, c.isDigit) (hex sign zero : Bool) :
    ∃ m, run (.number hex sign zero, s) t = some (m, s) ∧ m.isCode := by
  induction t generalizing hex sign zero with
  | nil => exact ⟨_, rfl, rfl⟩
  | cons c t ih =>
    have hc := h c (by simp)
    have hco := continuesNumber_of_continuesIdent (continuesIdent_of_isDigit hc) sign
    have hq := ne_of_holds hc (d := '\'') (by decide)
    obtain ⟨hex', sign', honw⟩ : ∃ hex' sign', (Mode.number hex sign zero).onward c = some (.number hex' sign' false) :=
      ⟨_, _, by rw [Mode.onward, if_neg hq]⟩
    obtain ⟨m, hr, hm⟩ := ih (fun d hd => h d (by simp [hd])) hex' sign' false
    refine ⟨m, ?_, hm⟩
    rw [run_cons, next_onward (by simp [Mode.fresh?, hco]) honw]
    exact hr

/-- A decimal number closes its brackets. -/
theorem closes_ofNat (n : Nat) : Closes (ofNat n) := by
  unfold ofNat
  have hdig : ∀ c ∈ Nat.toDigits 10 n, c.isDigit :=
    fun c hc => Nat.isDigit_of_mem_toDigits (by decide) (by decide) hc
  cases ht : Nat.toDigits 10 n with
  | nil => exact closes_nil
  | cons c t =>
    rw [ht] at hdig
    have hc := hdig c (by simp)
    obtain ⟨m, hr, hm⟩ := run_digits (fun d hd => hdig d (mem_cons_of_mem c hd)) false false (c == '0')
    refine ⟨m, ?_, hm⟩
    rw [run_cons, next_code, start_digit hc, turn_of_continuesIdent (continuesIdent_of_isDigit hc)]
    exact hr

theorem closes_ofInt (n : Int) : Closes (ofInt n) := by
  cases n with
  | ofNat n => exact closes_ofNat n
  | negSucc n => exact .append_of_code (x := ['-']) rfl (closes_ofNat (n + 1))

variable {x base type name spelling value : Text}

/-- Words with a space between neighbours. -/
theorem run_words (h : ∀ word ∈ List.splitOn ' ' x, isName word) (lineStart inSpace : Bool)
    (s : List Bracket) : run (.code lineStart inSpace, s) x = some (.word, s) := by
  have hne := splitOn_ne_nil ' ' x
  have hx : List.intercalate [' '] (List.splitOn ' ' x) = x := intercalate_splitOn ' '
  rw [← hx]
  generalize List.splitOn ' ' x = pieces at h hne
  induction pieces generalizing lineStart inSpace with
  | nil => exact absurd rfl hne
  | cons word pieces ih =>
    have hw := run_name (h word mem_cons_self) lineStart inSpace s
    cases pieces with
    | nil => rwa [intercalate_singleton]
    | cons next rest =>
      rw [intercalate_cons_cons, append_assoc, run_append_of_eq hw]
      exact ih false true (fun u hu => h u (mem_cons_of_mem _ hu)) (cons_ne_nil _ _)

/-! ## Types -/

/-- The classes and enumerations have names that C can spell. -/
def NamesTypes (env : TypeEnv) : Prop :=
  ∀ name, env.isClass name = true ∨ env.isEnum name = true → isName name = true

/-- An integer type is read as words. -/
theorem run_integer (h : Spelling.isInteger base) (lineStart inSpace : Bool) (s : List Bracket) :
    run (.code lineStart inSpace, s) base = some (.word, s) := by
  have htys : ∀ type ∈ Spelling.integerTypes, isName type := by decide
  have hwords : ∀ word ∈ Spelling.integerWords, isName word := by decide
  unfold Spelling.isInteger at h
  rw [Bool.or_eq_true, Bool.and_eq_true, contains_iff_mem, all_eq_true] at h
  rcases h with hmem | ⟨-, hall⟩
  · exact run_name (htys base hmem) lineStart inSpace s
  · exact run_words (fun word hw => hwords word (contains_iff_mem.1 (hall word hw))) lineStart inSpace s

/-- The base of a type is made of words. -/
theorem run_base {env : TypeEnv} (henv : NamesTypes env) (lineStart inSpace : Bool) (s : List Bracket) :
    run (.code lineStart inSpace, s) (ofSpelling env spelling).base = some (.word, s) := by
  have hwords (x : Text) (h : ∀ word ∈ List.splitOn ' ' x, isName word) :=
    run_words h lineStart inSpace s
  simp only [ofSpelling]
  generalize Spelling.base spelling = base
  split
  · exact hwords _ (by decide)
  · rename_i hkn
    unfold ofBase at hkn
    split at hkn
    · rename_i h
      exact hwords _ (by rw [h]; decide)
    split at hkn
    · rename_i h
      rcases h with h | h <;> exact hwords _ (by rw [h]; decide)
    split at hkn
    · rename_i h
      rcases h with h | h | h <;> exact hwords _ (by rw [h]; decide)
    split at hkn
    · rename_i h
      exact hwords _ (by rw [h]; decide)
    split at hkn
    · rename_i h
      rcases h with h | h <;> exact hwords _ (by rw [h]; decide)
    split at hkn
    · rename_i h
      exact run_integer h lineStart inSpace s
    split at hkn
    · rename_i h
      exact run_name (henv base (.inr h)) lineStart inSpace s
    split at hkn
    · rename_i h
      exact run_name (henv base (.inl h)) lineStart inSpace s
    · exact absurd rfl hkn

/-- The stars of a pointer are read as code. -/
theorem run_stars (n : Nat) (s : List Bracket) : ∃ m, run (.word, s) (replicate n '*') = some (m, s) ∧ m.isCode := by
  cases n with
  | zero => exact ⟨.word, rfl, rfl⟩
  | succ n =>
    refine ⟨.code false false, ?_, rfl⟩
    induction n with
    | zero => rfl
    | succ n ih => exact ih

/-- A type in C closes its brackets. -/
theorem closes_spelling {env : TypeEnv} (henv : NamesTypes env) (spelling : Text) :
    Closes (ofSpelling env spelling).spelling := by
  obtain ⟨m, hr, hm⟩ := run_stars (ofSpelling env spelling).pointer []
  refine ⟨m, ?_, hm⟩
  rw [CType.spelling, run_append_of_eq (run_base henv false false [])]
  exact hr

theorem closes_typed (hty : Closes type) (hn : isName name) : Closes (type ++ " " ++ name) :=
  hty.sep (closes_name hn) (by decide) rfl

theorem head_dimensions? {spelling d : Text} (h : dimensions? spelling = some d) : d.head? = some '[' := by
  unfold dimensions? at h
  have hs := head?_dropWhile_not (fun c => decide (c ≠ '[')) spelling
  cases hdims : spelling.dropWhile (fun c => decide (c ≠ '[')) with
  | nil =>
    rw [hdims] at h
    nomatch h
  | cons c dims =>
    rw [hdims] at h hs
    obtain rfl : c = '[' := by simpa using hs
    cases h
    rfl

/-- A declaration closes its brackets if its dimensions do. -/
theorem closes_declare {env : TypeEnv} (henv : NamesTypes env) (hn : isName name)
    (hdims : ∀ d, dimensions? spelling = some d → Closes d) : Closes ((ofSpelling env spelling).declare name) := by
  have hnd := closes_typed (closes_spelling henv spelling) hn
  unfold CType.declare
  have harray : (ofSpelling env spelling).array = dimensions? spelling := rfl
  rw [harray]
  cases hd : dimensions? spelling with
  | none =>
    rw [Option.getD_none, append_nil]
    exact hnd
  | some d =>
    refine hnd.append (hdims d hd) ?_
    intro c hc
    cases (head_dimensions? hd).symm.trans hc
    decide

/-! ## Values -/

/-- User types of known names are called by names. -/
theorem isName_of_ofBase {env : TypeEnv} (henv : NamesTypes env)
    (h : ofBase env base = .userEnum name ∨ ofBase env base = .userClass name) : isName name := by
  unfold ofBase at h
  split_ifs at h <;> rcases h with h | h <;> cases h
  · rename_i henum
    exact henv base (.inr henum)
  · rename_i hcls
    exact henv base (.inl hcls)

theorem closes_cast (h : Closes type) (hval : Closes value) : Closes ("(" ++ type ++ ')' :: value) := by
  obtain ⟨m, hr, hm⟩ := h.run false false [.round]
  have hg := run_group (x := []) (q := (.code false false, [])) rfl rfl (o := '(') (c := ')') rfl rfl hr hm
  have hspl : "(".toList ++ type ++ ')' :: value = ([] ++ '(' :: type ++ [')']) ++ value := by simp
  rw [hspl]
  exact .append_of_code hg hval

/-- A default value closes its brackets. -/
theorem closes_defaultValue? {env : TypeEnv} (henv : NamesTypes env)
    (h : (ofSpelling env spelling).defaultValue? = some value) : Closes value := by
  have hz : Closes "0" := ⟨_, rfl, rfl⟩
  unfold CType.defaultValue? at h
  split at h
  · nomatch h
  split at h
  · cases h
    exact closes_cast (closes_spelling henv spelling) hz
  split at h
  · cases h
    exact ⟨_, rfl, rfl⟩
  · cases h
    exact ⟨_, rfl, rfl⟩
  · cases h
    exact ⟨_, rfl, rfl⟩
  · rename_i name hn
    cases h
    exact closes_cast (closes_name (isName_of_ofBase henv (.inl hn))) hz
  · rename_i name hn
    cases h
    exact closes_cast (closes_name (isName_of_ofBase henv (.inr hn))) ⟨.code false false, rfl, rfl⟩
  · cases h
    exact hz

/-- A zero value closes its brackets. -/
theorem closes_zeroValue? {env : TypeEnv} (henv : NamesTypes env)
    (h : (ofSpelling env spelling).zeroValue? = some value) : Closes value := by
  unfold CType.zeroValue? at h
  split at h
  · nomatch h
  split at h
  · cases h
    exact ⟨_, rfl, rfl⟩
  split at h
  · nomatch h
  · nomatch h
  · exact closes_defaultValue? henv h

/-! ## Directives and comments -/

/-- A directive is read as a line of its own. -/
theorem readsLine_directive {line : Text} {d : Char} (hhd : line.head? = some '#') (hf : '\n' ∉ line)
    (hl : line.getLast? = some d) (hd : isBlank d = false ∧ d ≠ '\\') (s : List Bracket) : ReadsLine s line s := by
  intro inSpace
  obtain ⟨r, rfl⟩ := head?_eq_some_iff.1 hhd
  rw [mem_cons, not_or] at hf
  have htl : r.foldl LineTail.add .text = .text := by
    rcases eq_nil_or_concat r with rfl | ⟨r, e, rfl⟩
    · rfl
    · rw [concat_eq_append, ← cons_append, getLast?_concat] at hl
      cases hl
      simp [LineTail.add, hd.1, hd.2]
  have hh : next (.code true inSpace, s) '#' = some (.directive .text, s) := by cases inSpace <;> rfl
  rw [cons_append, run_cons, hh, Option.bind_some, run_append_of_eq (run_directiveLine hf.2 .text s), htl]
  rfl

/-- A comment is read on up to the first `*/`. -/
theorem run_comment (s : List Bracket) (star : Bool) (h : contains (if star then '*' :: x else x) "*/" = false) :
    ∃ star', run (.blockComment star, s) x = some (.blockComment star', s) := by
  induction x generalizing star with
  | nil => exact ⟨star, rfl⟩
  | cons c x ih =>
    have hx : contains (c :: x) "*/" = false := by
      cases star with
      | false => exact h
      | true =>
        rw [if_pos rfl, contains_cons, Bool.or_eq_false_iff] at h
        exact h.2
    have hend : ¬(star ∧ c = '/') := by
      rintro ⟨rfl, rfl⟩
      cases h
    have hrs : contains (if c == '*' then '*' :: x else x) "*/" = false := by
      split
      · rename_i hc
        rwa [beq_iff_eq.1 hc] at hx
      · rw [contains_cons, Bool.or_eq_false_iff] at hx
        exact hx.2
    obtain ⟨star', hr⟩ := ih (c == '*') hrs
    refine ⟨star', ?_⟩
    rw [run_cons, next_onward rfl (by rw [Mode.onward, if_neg hend])]
    exact hr

end Scan

namespace Document

variable {source : Text}

/-! ## Lines that every file has -/

/-- The banner is a comment, unless its source ends it. -/
theorem closes_banner (h : contains source "*/" = false) :
    Closes ("/* Generated by xc8pp from " ++ source ++ ". Do not edit. */") := by
  obtain ⟨star, hr⟩ := run_comment [] false h
  have hst : run (.code false false, []) "/* Generated by xc8pp from " = some (.blockComment false, []) := rfl
  have hend : run (.blockComment star, []) ". Do not edit. */" = some (.code false false, []) := by
    cases star <;> rfl
  refine ⟨.code false false, ?_, rfl⟩
  rw [append_assoc, run_append_of_eq hst, run_append_of_eq hr, hend]

theorem balanced_includeLocal {name : Text} (h : '\n' ∉ name) : (includeLocal name).Balanced := by
  refine readsLine_directive (d := '"') rfl ?_ getLast?_concat (by decide) []
  simp [h]

theorem toUpper_ne_lineFeed {c : Char} (h : c.isAlphanum) : c.toUpper ≠ '\n' := by
  intro hc
  unfold Char.toUpper at hc
  split at hc
  · rename_i hlower
    have h₁ := UInt32.le_iff_toNat_le.1 hlower.1
    have h₂ := UInt32.le_iff_toNat_le.1 hlower.2
    have h₃ := congrArg UInt32.toNat (congrArg Char.val hc)
    have hfst : 'a'.val.toNat = 97 := rfl
    have hl : 'z'.val.toNat = 122 := rfl
    have hsh : ('A'.val - 'a'.val).toNat = 4294967264 := rfl
    have hf : '\n'.val.toNat = 10 := rfl
    rw [UInt32.toNat_add] at h₃
    omega
  · subst hc
    exact absurd h (by decide)

/-- The guard macro is on one line. -/
theorem lineFeed_not_mem_guardName (stem : Text) : '\n' ∉ guardName stem := by
  have hmap : '\n' ∉ stem.map fun c => if c.isAlphanum then c.toUpper else '_' := by
    rw [mem_map]
    rintro ⟨c, -, hc⟩
    split at hc
    · rename_i halnum
      exact toUpper_ne_lineFeed halnum hc
    · nomatch hc
  unfold guardName
  rw [mem_append, not_or]
  refine ⟨?_, by decide⟩
  split
  · rw [mem_cons, not_or]
    exact ⟨by decide, hmap⟩
  · exact hmap

theorem getLast?_guardName (stem : Text) : (guardName stem).getLast? = some 'H' := by
  exact getLast?_append_of_ne_nil _ (by decide)

/-- A line of the guard is balanced. -/
theorem balanced_guardLine {word : Text} (hw : word.head? = some '#') (hf : '\n' ∉ word) :
    (Item.line (word ++ guardName stem)).Balanced := by
  refine readsLine_directive (d := 'H') ?_ ?_ ?_ (by decide) []
  · rw [head?_append, hw]
    rfl
  · rw [mem_append, not_or]
    exact ⟨hf, lineFeed_not_mem_guardName stem⟩
  · rw [getLast?_append, getLast?_guardName]
    rfl

theorem balanced_endifLine : (Item.line ("#endif /* " ++ guardName stem ++ " */")).Balanced := by
  refine readsLine_directive (d := '/') rfl ?_ ?_ (by decide) []
  · rw [mem_append, mem_append, not_or, not_or]
    exact ⟨⟨by decide, lineFeed_not_mem_guardName stem⟩, by decide⟩
  · rw [getLast?_append]
    rfl

theorem balanced_banner (h : contains source "*/" = false) : ∀ item ∈ banner source, item.Balanced := by
  intro item hi
  rw [mem_singleton.1 hi]
  exact (closes_banner h).readsLine []

/-- A guarded header is balanced if its content is. -/
theorem balanced_guarded {stem : Text} {content : Document} (hsrc : contains source "*/" = false)
    (hcon : ∀ item ∈ content, item.Balanced) : ∀ item ∈ guarded source stem content, item.Balanced := by
  intro item hi
  simp only [guarded, mem_append, mem_cons, not_mem_nil, or_false] at hi
  rcases hi with ((hban | rfl | rfl | rfl) | hi) | rfl
  · exact balanced_banner hsrc item hban
  · exact balanced_guardLine rfl (by decide)
  · exact balanced_guardLine rfl (by decide)
  · trivial
  · exact hcon item hi
  · exact balanced_endifLine

theorem balanced_standardIncludes : ∀ item ∈ standardIncludes, item.Balanced := by
  intro item hi
  simp only [standardIncludes, mem_cons, not_mem_nil, or_false] at hi
  rcases hi with rfl | rfl | rfl <;>
    exact readsLine_directive (d := '>') rfl (by decide) (by decide) (by decide) []

theorem balanced_deviceInclude (o : OutputOptions) : ∀ item ∈ deviceInclude o, item.Balanced := by
  intro item hi
  unfold deviceInclude at hi
  split at hi
  · rw [mem_singleton.1 hi]
    exact readsLine_directive (d := '>') rfl (by decide) (by decide) (by decide) []
  · nomatch hi

theorem balanced_xtalDefault (o : OutputOptions) : ∀ item ∈ xtalDefault o, item.Balanced := by
  intro item hi
  simp only [xtalDefault, mem_cons, not_mem_nil, or_false] at hi
  rcases hi with rfl | rfl | rfl
  · exact readsLine_directive (d := 'Q') rfl (by decide) (by decide) (by decide) []
  · have hdigits : ∀ c ∈ ofNat o.xtalFreq, c.isDigit :=
      fun c hc => Nat.isDigit_of_mem_toDigits (by decide) (by decide) hc
    obtain ⟨d, hd⟩ : ∃ d, (ofNat o.xtalFreq).getLast? = some d :=
      ⟨_, getLast?_eq_some_getLast Nat.toDigits_ne_nil⟩
    have hdig := hdigits d (mem_of_getLast? hd)
    refine readsLine_directive rfl ?_ ?_ ⟨?_, ne_of_holds hdig (by decide)⟩ []
    · rw [mem_append, not_or]
      exact ⟨by decide, fun hmem => absurd (hdigits _ hmem) (by decide)⟩
    · rw [getLast?_append, hd]
      rfl
    · exact isBlank_eq_false_of_continuesIdent (continuesIdent_of_isDigit hdig)
  · exact readsLine_directive (d := 'f') rfl (by decide) (by decide) (by decide) []

end Document

end Declass
