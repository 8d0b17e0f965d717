import Declass.Proofs.Outline.Definitions
import Declass.Proofs.Outline.Heads
import Declass.Proofs.Token.Between

/-!
# Literals and comments do not matter to an outline

`Token.mask` takes the text of a comment or of a literal away. No walk compares such a text with anything, so a masked fragment is
walked as the fragment is. Main statement: sources that are alike but for such texts have the same outline without texts
(`Outline.skeleton_ofSource_congr`).
-/

namespace Declass

open List Text

namespace Token

variable {t u : Token} {ts us : List Token} {lineStart : Bool}

/-! ## Masked tokens -/

/-- A comment, a string or a character literal. -/
def isQuiet (t : Token) : Bool :=
  match t.kind with
  | .comment | .string | .char => true
  | _ => false

/-- The token with a quote in place of a text that is not read. -/
def mask (t : Token) : Token :=
  if t.isQuiet then { t with text := "\"" } else t

/-- A token that is not quiet is its own mask. -/
theorem mask_of_not_isQuiet (h : t.isQuiet = false) : t.mask = t := by
  rw [mask, if_neg (by simp [h])]

@[simp]
theorem kind_mask : t.mask.kind = t.kind := by
  unfold mask
  split <;> rfl

@[simp]
theorem start_mask : t.mask.start = t.start := by
  unfold mask
  split <;> rfl

@[simp]
theorem isIdent_mask : t.mask.isIdent = t.isIdent := by
  rw [isIdent, kind_mask, isIdent]

theorem mask_of_isIdent (h : t.isIdent) : t.mask = t := by
  simp only [isIdent, beq_iff_eq] at h
  exact mask_of_not_isQuiet (by simp [isQuiet, h])

theorem mask_of_punct (h : t.kind = .punct) : t.mask = t :=
  mask_of_not_isQuiet (by simp [isQuiet, h])

/-- Masking keeps all punctuation. -/
@[simp]
theorem isPunct_mask (t : Token) (p : Text) : t.mask.isPunct p = t.isPunct p := by
  by_cases h : t.kind = .punct
  · rw [mask_of_punct h]
  · rw [isPunct, isPunct, kind_mask, beq_eq_false_iff_ne.2 h]
    rfl

/-- Masking keeps all words. -/
@[simp]
theorem isWord_mask (w : Text) : t.mask.isWord w = t.isWord w := by
  by_cases h : t.isIdent
  · rw [mask_of_isIdent h]
  · simp [isWord, h]

@[simp]
theorem isPunctOf_mask (ps : List Text) : t.mask.isPunctOf ps = t.isPunctOf ps := by
  simp [isPunctOf, funext (isPunct_mask t)]

@[simp]
theorem isWordOf_mask (ws : List Text) : t.mask.isWordOf ws = t.isWordOf ws := by
  simp [isWordOf, funext isWord_mask]

/-- The token that a mark is keeps its place. -/
theorem stop_mask_of_isPunct {p : Text} (h : t.isPunct p) : t.mask.stop = t.stop := by
  simp only [isPunct, Bool.and_eq_true, beq_iff_eq] at h
  rw [mask_of_punct h.1]

/-! ## Tokens that are alike -/

/-- The tokens have one kind and place, and one text if it is read. -/
@[mk_iff]
structure Alike (t u : Token) : Prop where
  kind : t.kind = u.kind
  start : t.start = u.start
  stop : t.stop = u.stop
  text : t.isQuiet = false → t.text = u.text

instance (t u : Token) : Decidable (Alike t u) :=
  decidable_of_iff _ (alike_iff t u).symm

/-- Alike tokens have one mask. -/
theorem Alike.mask_eq (h : Alike t u) : t.mask = u.mask := by
  obtain ⟨kind, text, start⟩ := t
  obtain ⟨kind', text', start'⟩ := u
  obtain ⟨rfl, rfl, -, htx⟩ := h
  by_cases hq : isQuiet ⟨kind, text, start⟩
  · have hq' : isQuiet ⟨kind, text', start⟩ := hq
    rw [mask, mask, if_pos hq, if_pos hq']
  · obtain rfl : text = text' := htx (by simpa using hq)
    rfl

/-- Of two alike tokens both are trivia or neither. -/
theorem Alike.isTrivia_eq (h : Alike t u) : t.isTrivia = u.isTrivia := by
  rw [isTrivia, isTrivia, h.kind]

/-- A name starts as one does, and what is not read with a slash or a quote. -/
structure Legible (t : Token) : Prop where
  ident : t.isIdent = true → t.text.head?.any startsIdent = true
  quiet : t.isQuiet = true → t.text.head?.any (fun c => c == '/' || c == '"' || c == '\'') = true

/-- A lexeme is legible. -/
theorem Lexeme.legible {c : Char} {rest : Text} {n : Nat} (h : Lexeme lineStart c rest t.kind n)
    (ht : t.text.head? = some c) : Legible t := by
  obtain ⟨kind, text, start⟩ := t
  constructor
  · intro hk
    rw [ht]
    cases h with
    | ident hc => exact hc
    | _ => cases hk
  · intro hk
    rw [ht]
    cases h with
    | line hc _ => simp [hc]
    | block hc _ => simp [hc]
    | string hc => simp [hc]
    | char hc => simp [hc]
    | _ => cases hk

/-- What the lexer reads is legible. -/
theorem Lexed.legible (h : Lexed lineStart ts) (ht : t ∈ ts) : Legible t := by
  induction h with
  | nil => cases ht
  | cons c r htx hl _ ih =>
    rcases List.mem_cons.mp ht with rfl | ht
    · exact hl.legible (by rw [htx]; rfl)
    · exact ih ht

/-- A mask is legible. -/
theorem Legible.mask (h : Legible t) : Legible t.mask := by
  constructor
  · intro hk
    rw [isIdent_mask] at hk
    rw [mask_of_isIdent hk]
    exact h.ident hk
  · intro hk
    by_cases hq : t.isQuiet
    · rw [Token.mask, if_pos hq]
      rfl
    · rw [mask_of_not_isQuiet (by simpa using hq)] at hk ⊢
      exact h.quiet hk

/-- A text that is not read is not blank, and is no name. -/
theorem Legible.allBlank_eq_false (h : Legible t) (hq : t.isQuiet) : Text.allBlank t.text = false := by
  obtain ⟨c, hc, hquo⟩ := (Option.any_eq_true _ _).mp (h.quiet hq)
  obtain ⟨r, hr⟩ := List.head?_eq_some_iff.mp hc
  have hbl : Text.isBlank c = false := by
    simp only [Bool.or_eq_true, beq_iff_eq] at hquo
    rcases hquo with (rfl | rfl) | rfl <;> decide
  simp [hr, Text.allBlank, hbl]

theorem Legible.allBlank_mask (h : Legible t) : Text.allBlank t.mask.text = Text.allBlank t.text := by
  by_cases hq : t.isQuiet
  · rw [h.allBlank_eq_false hq, Token.mask, if_pos hq]
    rfl
  · rw [mask_of_not_isQuiet (by simpa using hq)]

/-- A quiet token is not spelled like an identifier. -/
theorem Legible.text_ne (h : Legible t) (hq : t.isQuiet) (hu : Legible u) (hid : u.isIdent) : t.text ≠ u.text := by
  intro heq
  have hst := hu.ident hid
  rw [← heq] at hst
  obtain ⟨c, hc, hquo⟩ := (Option.any_eq_true _ _).mp (h.quiet hq)
  rw [hc] at hst
  simp only [Bool.or_eq_true, beq_iff_eq] at hquo
  rcases hquo with (rfl | rfl) | rfl <;> exact absurd hst (by decide)

end Token

namespace Fragment

open Token

variable {F : Fragment} {k : Nat} {ts : List Token}

/-! ## Masked fragments -/

/-- What is left of a gap: whether it is blank. -/
def maskGap (g : Text) : Text :=
  if Text.allBlank g then [] else "/"

/-- The fragment without the texts that are not read. -/
def masked (F : Fragment) : Fragment where
  gaps := F.gaps.map maskGap
  tokens := F.tokens.map mask

theorem allBlank_maskGap (g : Text) : allBlank (maskGap g) = allBlank g := by
  unfold maskGap
  split
  · next h => rw [h]; rfl
  · next h => rw [Bool.not_eq_true] at h; rw [h]; rfl

/-- Masking keeps which runs of text are blank. -/
theorem allBlank_weave {gaps : List Text} (h : ∀ t ∈ ts, Legible t) :
    allBlank (weave (gaps.map maskGap) (ts.map mask)) = allBlank (weave gaps ts) := by
  induction ts generalizing gaps with
  | nil =>
    cases gaps with
    | nil => rfl
    | cons g gaps => exact allBlank_maskGap g
  | cons t ts ih =>
    cases gaps with
    | nil => rfl
    | cons g gaps =>
      have hr : allBlank (weave (gaps.map maskGap) (ts.map mask)) = allBlank (weave gaps ts) :=
        ih fun u hu => h u (mem_cons_of_mem t hu)
      simp only [map_cons, weave, allBlank_append, allBlank_maskGap, hr, (h t mem_cons_self).allBlank_mask]

/-- Whether only blanks are between two tokens is not changed. -/
theorem allBlank_between_masked (h : ∀ t ∈ F.tokens, Legible t) (i j : Nat) :
    allBlank (F.masked.between i j) = allBlank (F.between i j) := by
  simp only [between, masked, ← map_drop, ← map_take]
  refine allBlank_weave ?_
  intro t ht
  exact h t (mem_of_mem_drop (mem_of_mem_take ht))

/-- Alike tokens are gathered with alike gaps. -/
theorem gather_masked {us : List Token} {lead lead' : Text} (h : List.Forall₂ Alike ts us) (hts : ∀ t ∈ ts, Legible t)
    (hus : ∀ u ∈ us, Legible u) (hle : allBlank lead = allBlank lead') :
    (gather lead ts).1.map maskGap = (gather lead' us).1.map maskGap ∧
      (gather lead ts).2.map mask = (gather lead' us).2.map mask := by
  induction h generalizing lead lead' with
  | nil => simp [gather, maskGap, hle]
  | @cons t u ts us htu _ ih =>
    have hts' : ∀ v ∈ ts, Legible v := fun v hv => hts v (mem_cons_of_mem t hv)
    have hus' : ∀ v ∈ us, Legible v := fun v hv => hus v (mem_cons_of_mem u hv)
    rw [gather, gather, htu.isTrivia_eq]
    split
    · refine ih hts' hus' ?_
      have htx : allBlank t.text = allBlank u.text := by
        rw [← (hts t mem_cons_self).allBlank_mask, ← (hus u mem_cons_self).allBlank_mask, htu.mask_eq]
      rw [allBlank_append, allBlank_append, hle, htx]
    · obtain ⟨hg, htok⟩ := @ih [] [] hts' hus' rfl
      simp only [map_cons, hg, htok, htu.mask_eq, maskGap, hle, and_self]

/-- The tokens of a text are legible. -/
theorem legible_ofText (s : Text) : ∀ t ∈ (ofText s).tokens, Legible t := by
  intro t ht
  rw [tokens_ofText] at ht
  exact (lexed_tokenizeFrom true 0 s).legible (mem_of_mem_filter ht)

/-- Sources that are alike are the same when masked. -/
theorem masked_eq {s s' : Text} (h : List.Forall₂ Alike (tokenize s) (tokenize s')) : (ofText s).masked = (ofText s').masked := by
  have hlegible (s : Text) : ∀ t ∈ tokenize s, Legible t := fun t ht => (lexed_tokenizeFrom true 0 s).legible ht
  obtain ⟨hg, hts⟩ := gather_masked h (hlegible s) (hlegible s') (Eq.refl (allBlank []))
  simp only [masked, ofText, hg, hts]

end Fragment

open Fragment List

namespace Token

variable {ts : List Token} {depth : Nat}

/-! ## Walks over masked tokens -/

/-- Angle brackets are closed where they were. -/
theorem anglesLength_mask : anglesLength depth (ts.map mask) = anglesLength depth ts := by
  induction ts generalizing depth with
  | nil => rfl
  | cons t ts ih => simp only [map_cons, anglesLength, isPunct_mask, isPunctOf_mask, ih]

/-- Expressions end where they did. -/
theorem exprLength_mask : exprLength depth (ts.map mask) = exprLength depth ts := by
  induction ts generalizing depth with
  | nil => rfl
  | cons t ts ih => simp only [map_cons, exprLength, isPunctOf_mask, ih]

theorem segment?_mask : segment? (ts.map mask) = segment? ts := by
  cases ts with
  | nil => rfl
  | cons t ts =>
    have hh : ((ts.map mask).head?.filter isIdent).map (fun u => ('~' :: u.text, 2)) =
        (ts.head?.filter isIdent).map fun u => ('~' :: u.text, 2) := by
      cases ts with
      | nil => rfl
      | cons u us =>
        by_cases hu : u.isIdent
        · rw [map_cons, mask_of_isIdent hu]
          rfl
        · simp [Option.filter, hu]
    rw [map_cons, segment?, segment?, hh]
    by_cases ht : t.isIdent
    · rw [mask_of_isIdent ht]
    · simp [ht]

/-- Commas separate the same groups. -/
theorem commaGroups_mask : commaGroups depth (ts.map mask) = (commaGroups depth ts).map (map mask) := by
  induction ts generalizing depth with
  | nil => rfl
  | cons t ts ih =>
    simp only [map_cons, commaGroups, isPunct_mask, isPunctOf_mask, ih]
    split
    · rfl
    · generalize commaGroups _ ts = groups
      cases groups <;> rfl

end Token

namespace Fragment

open Token

variable (F : Fragment)

/-! ## Walks over a masked fragment -/

@[simp]
theorem tok?_masked (k : Nat) : F.masked.tok? k = (F.tok? k).map mask :=
  getElem?_map

@[simp]
theorem size_masked : F.masked.size = F.size :=
  length_map mask

theorem drop_masked (k : Nat) : F.masked.tokens.drop k = (F.tokens.drop k).map mask :=
  map_drop.symm

/-- The view keeps its punctuation. -/
@[simp]
theorem isPunct_masked (k : Nat) (p : Text) : F.masked.isPunct k p = F.isPunct k p := by
  rw [isPunct, tok?_masked, isPunct, Option.any_map]
  simp only [isPunct_mask]

@[simp]
theorem isIdent_masked (k : Nat) : F.masked.isIdent k = F.isIdent k := by
  rw [isIdent, tok?_masked, isIdent, Option.any_map]
  simp only [isIdent_mask]

/-- The view keeps its names. -/
@[simp]
theorem ident?_masked (k : Nat) : F.masked.ident? k = F.ident? k := by
  rw [ident?, tok?_masked, ident?]
  cases F.tok? k with
  | none => rfl
  | some t =>
    by_cases ht : t.isIdent
    · rw [Option.map_some, mask_of_isIdent ht]
    · simp [Option.filter, ht]

/-- The view keeps the ends of its groups. -/
@[simp]
theorem close?_masked (k : Nat) : F.masked.close? k = F.close? k := by
  have hop : (F.masked.tokens[k]?).bind Bracket.opened? = (F.tokens[k]?).bind Bracket.opened? := by
    rw [masked, getElem?_map]
    cases F.tokens[k]? with
    | none => rfl
    | some t => simp [Bracket.opened?]
  rw [close?, matchingClose, hop, close?, matchingClose, drop_masked]
  simp only [closeWithin_map isPunct_mask]

@[simp]
theorem findPunct?_masked (ps : List Text) (k : Nat) : F.masked.findPunct? ps k = F.findPunct? ps k := by
  rw [findPunct?, drop_masked, findIdx?_map, findPunct?]
  simp only [Function.comp_def, isPunctOf_mask]

@[simp]
theorem skipAngles_masked (k : Nat) : F.masked.skipAngles k = F.skipAngles k := by
  rw [skipAngles, drop_masked, anglesLength_mask, skipAngles]

@[simp]
theorem exprEnd?_masked (k : Nat) : F.masked.exprEnd? k = F.exprEnd? k := by
  rw [exprEnd?, drop_masked, exprLength_mask, exprEnd?]

/-- The view keeps its chains of names. -/
@[simp]
theorem chain_masked (k : Nat) : F.masked.chain k = F.chain k := by
  induction hn : F.size - k using Nat.strongRecOn generalizing k with
  | ind n ih =>
    have hsegment : segment? (F.masked.tokens.drop k) = segment? (F.tokens.drop k) := by
      rw [drop_masked, segment?_mask]
    cases hs : segment? (F.tokens.drop k) with
    | none => rw [chain_of_segment_none hs, chain_of_segment_none (hsegment.trans hs)]
    | some seg =>
      obtain ⟨name, m⟩ := seg
      rw [chain_of_segment hs, chain_of_segment (hsegment.trans hs), isPunct_masked]
      split
      · next hcol =>
        have hlt := lt_size_of_isPunct hcol
        rw [ih (F.size - (k + m + 1)) (by omega) (k + m + 1) rfl]
      · rfl

@[simp]
theorem skipGroup_masked (k : Nat) : F.masked.skipGroup k = F.skipGroup k := by
  simp only [skipGroup, isPunct_masked, close?_masked]

@[simp]
theorem skipQualifiers_masked (k : Nat) : F.masked.skipQualifiers k = F.skipQualifiers k := by
  induction hn : F.size - k using Nat.strongRecOn generalizing k with
  | ind n ih =>
    cases ht : F.tok? k with
    | none => rw [skipQualifiers_of_none ht, skipQualifiers_of_none (by rw [tok?_masked, ht]; rfl)]
    | some t =>
      have ht' : F.masked.tok? k = some t.mask := by rw [tok?_masked, ht]; rfl
      have hlt := lt_size_of_tok? ht
      have hle := F.le_skipGroup (k + 1)
      rw [skipQualifiers_of_tok? ht, skipQualifiers_of_tok? ht', isWordOf_mask, isPunct_mask, isWord_mask, isPunct_mask,
        skipGroup_masked, findPunct?_masked, size_masked, ih (F.size - F.skipGroup (k + 1)) (by omega) _ rfl]

@[simp]
theorem initArgs_masked (k : Nat) : F.masked.initArgs k = F.initArgs k := by
  simp only [initArgs, chain_masked, isPunct_masked, skipAngles_masked]

/-- The view keeps the body after the initializers. -/
@[simp]
theorem bodyAfterInits?_masked (k : Nat) : F.masked.bodyAfterInits? k = F.bodyAfterInits? k := by
  induction hn : F.size - k using Nat.strongRecOn generalizing k with
  | ind n ih =>
    rw [bodyAfterInits?_unfold, bodyAfterInits?_unfold]
    simp only [chain_masked, initArgs_masked, isPunct_masked, close?_masked]
    refine ite_congr rfl (fun _ => rfl) fun _ => ite_congr rfl (fun _ => ?_) fun _ => rfl
    refine Option.bind_congr fun c hc => ite_congr rfl (fun hcom => ?_) fun _ => rfl
    have ha := F.le_initArgs k
    have hlt := lt_of_close? hc
    have hsz := lt_size_of_isPunct hcom
    exact ih (F.size - (c + 2)) (by omega) (c + 2) rfl

@[simp]
theorem squareOpenBefore?_masked (depth k : Nat) : F.masked.squareOpenBefore? depth k = F.squareOpenBefore? depth k := by
  induction k generalizing depth with
  | zero =>
    rw [squareOpenBefore?, squareOpenBefore?, tok?_masked]
    cases F.tok? 0 with
    | none => rfl
    | some t => simp only [Option.map_some, isPunct_mask]
  | succ k ih =>
    rw [squareOpenBefore?, squareOpenBefore?, tok?_masked]
    cases F.tok? (k + 1) with
    | none => rfl
    | some t => simp only [Option.map_some, isPunct_mask, ih]

@[simp]
theorem skipDimsBack?_masked (k : Nat) : F.masked.skipDimsBack? k = F.skipDimsBack? k := by
  induction k using Nat.strongRecOn with
  | ind k ih =>
    rw [skipDimsBack?_unfold, skipDimsBack?_unfold, isPunct_masked, squareOpenBefore?_masked]
    refine ite_congr rfl (fun _ => Option.bind_congr fun j hj => ?_) fun _ => rfl
    cases j with
    | zero => rfl
    | succ j =>
      have hle := le_of_squareOpenBefore? hj
      exact ih j (by omega)

@[simp]
theorem skipDims_masked (k : Nat) : F.masked.skipDims k = F.skipDims k := by
  induction hn : F.size - k using Nat.strongRecOn generalizing k with
  | ind n ih =>
    rw [skipDims_unfold, skipDims_unfold, isPunct_masked, close?_masked]
    refine ite_congr rfl (fun ho => ?_) fun _ => rfl
    cases hc : F.close? k with
    | none => rfl
    | some c =>
      have hlt := lt_of_close? hc
      have hsz := lt_size_of_isPunct ho
      exact ih (F.size - (c + 1)) (by omega) (c + 1) rfl

/-- The view keeps the starts of its declarations. -/
@[simp]
theorem declarationStart_masked (depth k : Nat) : F.masked.declarationStart depth k = F.declarationStart depth k := by
  induction k generalizing depth with
  | zero => rfl
  | succ j ih =>
    rw [declarationStart, declarationStart, tok?_masked]
    cases F.tok? j with
    | none => rfl
    | some t => simp only [Option.map_some, isPunct_mask, isPunctOf_mask, isPunct_masked, ih]

@[simp]
theorem skipPointersBack?_masked (k : Nat) : F.masked.skipPointersBack? k = F.skipPointersBack? k := by
  induction k with
  | zero => simp only [skipPointersBack?, isPunct_masked]
  | succ k ih => simp only [skipPointersBack?, isPunct_masked, ih]

@[simp]
theorem endsDeclarator_masked (k : Nat) : F.masked.endsDeclarator k = F.endsDeclarator k := by
  rw [endsDeclarator, tok?_masked, endsDeclarator, Option.any_map]
  simp only [isPunctOf_mask]

/-- The view keeps the declared types. -/
@[simp]
theorem declaredType?_masked (k : Nat) : F.masked.declaredType? k = F.declaredType? k := by
  simp only [declaredType?, declarationStart_masked, isIdent_masked, endsDeclarator_masked, skipPointersBack?_masked,
    ident?_masked]

@[simp]
theorem endsInitializer_masked (k : Nat) : F.masked.endsInitializer k = F.endsInitializer k := by
  simp only [endsInitializer, isPunct_masked]

end Fragment

/-! ## Outlines without texts -/

/-- The parameter without the text of its type. -/
def WrittenParam.skeleton (p : WrittenParam) : WrittenParam :=
  { p with type := [] }

/-- The definition without parameter types, member initializers and body. -/
def Definition.skeleton (d : Definition) : Definition :=
  { d with params := d.params.map WrittenParam.skeleton, initList := d.initList.map fun _ => [], body := [] }

/-- The initializer without the text of its arguments. -/
def GlobalInit.skeleton (g : GlobalInit) : GlobalInit :=
  { g with args := [] }

/-- The item without texts that are taken over from the source. -/
def OutlineItem.skeleton : OutlineItem → OutlineItem
  | .definition d => .definition d.skeleton
  | .classBlock name span => .classBlock name span
  | .global g => .global g.skeleton

/-- The outline without the texts that are taken over. -/
def Outline.skeleton (o : Outline) : Outline where
  definitions := o.definitions.map Definition.skeleton
  classes := o.classes
  globals := o.globals.map GlobalInit.skeleton

/-- An outline and its skeleton list the same items. -/
theorem Outline.ofItems_skeleton (items : List OutlineItem) :
    ofItems (items.map OutlineItem.skeleton) = (ofItems items).skeleton := by
  induction items with
  | nil => rfl
  | cons item items ih =>
    simp only [ofItems, skeleton, mk.injEq] at ih
    obtain ⟨hdefinitions, hcls, hglob⟩ := ih
    cases item <;>
      simp [ofItems, skeleton, OutlineItem.skeleton, hdefinitions, hcls, hglob]

namespace WrittenParam

open Token

/-- A parameter is the same but for its type. -/
theorem skeleton_ofTokens_mask (group : List Token) : (ofTokens (group.map mask)).skeleton = (ofTokens group).skeleton := by
  have hh : (group.map mask).takeWhile (fun t => !t.isPunct "[") = (group.takeWhile fun t => !t.isPunct "[").map mask := by
    rw [takeWhile_map]
    simp only [Function.comp_def, isPunct_mask]
  simp only [ofTokens, hh, ← map_reverse]
  generalize (group.takeWhile fun t => !t.isPunct "[").reverse = head
  cases head with
  | nil => rfl
  | cons name more =>
    cases more with
    | nil => rfl
    | cons last more =>
      simp only [map_cons, isPunct_mask, isIdent_mask]
      by_cases hn : name.isIdent
      · rw [mask_of_isIdent hn]
        split <;> rfl
      · rw [Bool.not_eq_true] at hn
        simp only [hn]
        rfl

/-- The parameters are the same but for their types. -/
theorem skeleton_listOfTokens_mask : (listOfTokens (ts.map mask)).map skeleton = (listOfTokens ts).map skeleton := by
  unfold listOfTokens
  rw [commaGroups_mask, filterMap_map, map_filterMap, map_filterMap]
  refine filterMap_congr fun group _ => ?_
  have htk : (group.map mask).takeWhile (fun t => !t.isPunct "=") = (group.takeWhile fun t => !t.isPunct "=").map mask := by
    rw [takeWhile_map]
    simp only [Function.comp_def, isPunct_mask]
  simp only [Function.comp_apply, htk]
  generalize (group.takeWhile fun t => !t.isPunct "=") = ts
  cases ts with
  | nil => rfl
  | cons t ts =>
    cases ts with
    | nil =>
      simp only [map_cons, map_nil, isWord_mask]
      split
      · rfl
      · exact congrArg some (skeleton_ofTokens_mask [t])
    | cons u ts => exact congrArg some (skeleton_ofTokens_mask (t :: u :: ts))

end WrittenParam

namespace Fragment

open Token

variable {F : Fragment} {k i j : Nat} {type : Text}

section

variable (hF : ∀ t ∈ F.tokens, Legible t)

include hF

theorem isEmpty_trim_between_masked (i j : Nat) : (F.masked.between i j).trim.isEmpty = (F.between i j).trim.isEmpty := by
  rw [Text.isEmpty_trim, Text.isEmpty_trim, allBlank_between_masked hF]

/-- An initializer in parentheses is found where it was. -/
theorem parenInit?_masked :
    (F.masked.parenInit? k name i j).map GlobalInit.skeleton = (F.parenInit? k name i j).map GlobalInit.skeleton := by
  simp only [parenInit?, isEmpty_trim_between_masked hF, isPunct_masked, skipDimsBack?_masked, ident?_masked,
    declaredType?_masked, apply_ite, Option.map_bind, Option.pure_def, Option.bind_eq_bind, Option.map_some,
    GlobalInit.skeleton, Function.comp_def]

/-- An initializer in braces is found where it was. -/
theorem braceInit?_masked : (F.masked.braceInit? k).map GlobalInit.skeleton = (F.braceInit? k).map GlobalInit.skeleton := by
  simp only [braceInit?, isEmpty_trim_between_masked hF, isPunct_masked, skipDimsBack?_masked, ident?_masked,
    close?_masked, endsInitializer_masked, declaredType?_masked, Option.map_bind, Option.pure_def,
    Option.bind_eq_bind, Option.map_some, GlobalInit.skeleton, Function.comp_def]

end

/-- A declared type is an identifier of the text. -/
theorem declaredType?_eq_some (h : F.declaredType? k = some type) : ∃ t ∈ F.tokens, t.isIdent ∧ t.text = type := by
  simp only [declaredType?, Option.bind_eq_bind, Option.bind_eq_some_iff] at h
  obtain ⟨_, _, last, _, hl⟩ := h
  obtain ⟨t, ht, rfl⟩ := Option.map_eq_some_iff.1 hl
  obtain ⟨htok, hid⟩ := Option.filter_eq_some_iff.1 ht
  exact ⟨t, mem_of_getElem? htok, hid, rfl⟩

/-- Masking neither makes nor hides a use of the declared type. -/
theorem text_mask_eq_iff (hF : ∀ t ∈ F.tokens, Legible t) {t : Token} (ht : t ∈ F.tokens)
    (hty : F.declaredType? k = some type) : t.mask.text = type ↔ t.text = type := by
  obtain ⟨u, hu, hid, rfl⟩ := declaredType?_eq_some hty
  by_cases hq : t.isQuiet
  · have hmask : t.mask.isQuiet := by rwa [isQuiet, kind_mask]
    exact iff_of_false ((hF t ht).mask.text_ne hmask (hF u hu) hid) ((hF t ht).text_ne hq (hF u hu) hid)
  · rw [mask_of_not_isQuiet (by simpa using hq)]

/-- An initializer after `=` is found where it was. -/
theorem assignedInit?_masked (hF : ∀ t ∈ F.tokens, Legible t) (name : Text) :
    (F.masked.assignedInit? k name i).map (Prod.map GlobalInit.skeleton id) =
      (F.assignedInit? k name i).map (Prod.map GlobalInit.skeleton id) := by
  simp only [assignedInit?, declaredType?_masked, tok?_masked]
  cases hty : F.declaredType? k with
  | none => rfl
  | some type =>
    cases ht : F.tok? (i + 1) with
    | none => rfl
    | some t =>
      simp only [Option.map_some, Option.bind_eq_bind, Option.bind_some, isPunct_mask, isPunct_masked, exprEnd?_masked,
        text_mask_eq_iff hF (mem_of_getElem? ht) hty, isEmpty_trim_between_masked hF, Option.map_bind,
        Option.pure_def, Function.comp_def, Prod.map, GlobalInit.skeleton]

end Fragment

namespace Outline

open Token

variable {F : Fragment} {blocks : List Enclosing} {k i j : Nat}

/-- The step without the texts of what it found. -/
def Step.skeleton (s : Step) : Step :=
  { s with found := s.found.map OutlineItem.skeleton }

/-- The view keeps parameters but for their types. -/
theorem skeleton_params_masked (i j : Nat) :
    (F.masked.params i j).map WrittenParam.skeleton = (F.params i j).map WrittenParam.skeleton := by
  simp only [params, masked, ← map_drop, ← map_take]
  exact WrittenParam.skeleton_listOfTokens_mask

theorem elim_stop_masked (h : F.isPunct k "\x7b") : (F.masked.tok? k).elim 0 Token.stop = (F.tok? k).elim 0 Token.stop := by
  rw [tok?_masked]
  cases ht : F.tok? k with
  | none => rfl
  | some t =>
    rw [Fragment.isPunct, ht] at h
    exact stop_mask_of_isPunct h

theorem elim_start_masked (k : Nat) : (F.masked.tok? k).elim 0 Token.start = (F.tok? k).elim 0 Token.start := by
  rw [tok?_masked]
  cases F.tok? k <;> simp

theorem map_global_skeleton (init : Option GlobalInit) :
    (init.map OutlineItem.global).map OutlineItem.skeleton = (init.map GlobalInit.skeleton).map OutlineItem.global := by
  cases init <;> rfl

section

variable (hF : ∀ t ∈ F.tokens, Legible t)

include hF

/-- A callable is found where it was. -/
theorem callableStep_masked (segments : List Text) : (callableStep F.masked blocks k segments name i j).map Step.skeleton =
      (callableStep F blocks k segments name i j).map Step.skeleton := by
  simp only [callableStep, skipQualifiers_masked, isPunct_masked, bodyAfterInits?_masked,
    close?_masked, endsInitializer_masked]
  generalize haft : F.skipQualifiers (j + 1) = after
  generalize hlisted : (if F.isPunct after ":" then F.bodyAfterInits? (after + 1) else none) = listed
  by_cases hb : F.isPunct (listed.getD after) "\x7b"
  · rw [if_pos hb, if_pos hb, elim_stop_masked hb]
    cases F.close? (listed.getD after) with
    | none => rfl
    | some close =>
      simp only [Option.map_some, Step.skeleton, OutlineItem.skeleton, Definition.skeleton, skeleton_params_masked,
        elim_start_masked, Option.map_map, Function.comp_def]
  · rw [if_neg hb, if_neg hb]
    simp only [Option.map_some, Step.skeleton, map_global_skeleton]
    split
    · rw [parenInit?_masked hF]
    · rfl

/-- A step at a name finds what it did. -/
theorem nameStep_masked : (nameStep F.masked blocks k).map Step.skeleton = (nameStep F blocks k).map Step.skeleton := by
  simp only [nameStep, chain_masked, skipDims_masked, isPunct_masked, close?_masked]
  cases (F.chain k).1.getLast? with
  | none => rfl
  | some name =>
    dsimp only
    have hasg : ∀ c : Prop, ∀ [Decidable c], (if c then F.masked.assignedInit? k name (F.skipDims (F.chain k).2) else none).map
            (.map .skeleton id) =
          (if c then F.assignedInit? k name (F.skipDims (F.chain k).2) else none).map
            (Prod.map GlobalInit.skeleton id) := by
      intro c _
      split
      · exact assignedInit?_masked hF name
      · rfl
    specialize hasg (((currentClass blocks).isNone && decide ((F.chain k).1.length = 1) &&
      F.isPunct (F.skipDims (F.chain k).2) "="))
    split
    · next hi =>
      rw [hi] at hasg
      obtain ⟨⟨init, stop⟩, hi', heq⟩ := Option.map_eq_some_iff.1 hasg.symm
      rw [hi']
      simp only [Prod.map, id, Prod.mk.injEq] at heq
      simp only [Option.map_some, Step.skeleton, OutlineItem.skeleton, heq]
    · next hi =>
      rw [hi] at hasg
      rw [Option.map_eq_none_iff.1 hasg.symm]
      split
      · rfl
      · split
        · rfl
        · exact callableStep_masked hF _

/-- A step finds what it did in the same blocks. -/
theorem step_masked (blocks : List Enclosing) (k : Nat) (t : Token) :
    (step F.masked blocks k t.mask).map Step.skeleton = (step F blocks k t).map Step.skeleton := by
  have hstr : (F.masked.tok? (k + 1)).any (·.kind == .string) = (F.tok? (k + 1)).any (·.kind == .string) := by
    rw [tok?_masked, Option.any_map]
    simp only [kind_mask]
  have hrec : recordStep F.masked blocks k t.mask = recordStep F blocks k t := by
    simp only [recordStep, findPunct?_masked, isPunct_masked, ident?_masked, isWord_mask, start_mask]
  simp only [step, isPunct_mask, isWord_mask, isWordOf_mask, isIdent_mask, isPunct_masked, hstr, hrec,
    namespaceStep, enumStep, findPunct?_masked, close?_masked, skipAngles_masked]
  by_cases hcl : t.isPunct "\x7d"
  · rw [if_pos hcl, if_pos hcl, stop_mask_of_isPunct hcl]
  rw [if_neg hcl, if_neg hcl]
  simp only [apply_ite (Option.map Step.skeleton), nameStep_masked hF]
  simp only [Option.map_some, Step.skeleton, map_global_skeleton, apply_ite (Option.map GlobalInit.skeleton),
    braceInit?_masked hF]

/-- The pass lists what it did, but for the texts it copies. -/
theorem scan_masked (blocks : List Enclosing) (k : Nat) :
    (scan F.masked blocks k).map OutlineItem.skeleton = (scan F blocks k).map OutlineItem.skeleton := by
  fun_induction scan F blocks k with
  | case1 blocks k h =>
    rw [scan_of_tok?_eq_none (by rw [tok?_masked, h]; rfl)]
  | case2 blocks k t ht hs =>
    have hst := step_masked hF blocks k t
    rw [hs] at hst
    rw [scan_of_step_eq_none (by rw [tok?_masked, ht]; rfl) (Option.map_eq_none_iff.1 hst)]
  | case3 blocks k t ht s hs ih =>
    have hst := step_masked hF blocks k t
    rw [hs] at hst
    obtain ⟨s', hs', hskeleton⟩ := Option.map_eq_some_iff.1 hst
    obtain ⟨b, found, next⟩ := s
    simp only [Step.skeleton, Step.mk.injEq] at hskeleton
    obtain ⟨rfl, hfd, rfl⟩ := hskeleton
    rw [scan_of_step (by rw [tok?_masked, ht]; rfl) hs', map_append, map_append, ih,
      ← Option.toList_map, ← Option.toList_map, hfd]

end

/-- The texts of comments and literals do not matter: two sources with the same tokens but for these texts have the same
definitions, classes and initializers, up to the texts taken over. -/
theorem skeleton_ofSource_congr {s s' : Text} (h : List.Forall₂ Alike (tokenize s) (tokenize s')) :
    (ofSource s).skeleton = (ofSource s').skeleton := by
  have hs := scan_masked (Fragment.legible_ofText s) [] 0
  have hs' := scan_masked (Fragment.legible_ofText s') [] 0
  rw [Fragment.masked_eq h] at hs
  rw [ofSource, ofSource, ← ofItems_skeleton, ← ofItems_skeleton, ← hs, ← hs']

/-- Braces and a keyword in literals and comments, against others of the same lengths. -/
theorem skeleton_ofSource_congr_marks :
    let s : Text := "class A \x7b A() : s(\"\x7d\") \x7b/* \x7d */\x7d \x7d;\n// class B \x7b\nLed led('(', x = \";\");"
    let s' : Text := "class A \x7b A() : s(\")\") \x7b/* \x7b */\x7d \x7d;\n// Led b(1);\nLed led('\x7b', x = \",\");"
    List.Forall₂ Alike (tokenize s) (tokenize s') ∧ (ofSource s).skeleton = (ofSource s').skeleton ∧
      (ofSource s).classes = [("A".toList, ⟨0, 34⟩)] ∧ (ofSource s).globals.map (·.name) = ["led".toList] :=
  have h := by decide +kernel
  ⟨h, skeleton_ofSource_congr h, by decide +kernel, by decide +kernel⟩

end Outline

end Declass
