import Declass.Proofs.Token.Reading
import Declass.Proofs.Token.Spans
import Declass.Text.Utf8

/-!
# Tokens by a byte cursor

`scanBytes` cuts a text into tokens with a cursor over its bytes. It moves byte by byte, two bytes after a backslash, and takes the
slices that it passes, which are checked to lie between characters. A character beyond ASCII has only bytes beyond ASCII, so no rule
sees one of them (`seen_of_ascii`). Main statement: no check fails, and the tokens are those of `tokenize` (`partitions_tokenize`).
-/

namespace Declass.Token

open List Text

variable {a t x rest : Text} {c d : Char} {p : Char → Bool} {pos i : Nat} {b : UInt8}

/-! ## Bytes -/

/-- A byte as a character. Beyond ASCII it is none that the rules speak of. -/
def ofByte (b : UInt8) : Char :=
  .ofNat b.toNat

/-- The bytes of a character are seen as the character is. -/
def Seen (p : Char → Bool) : Prop :=
  ∀ c, ∀ b ∈ String.utf8EncodeChar c, p (ofByte b) = p c

theorem toNat_ofByte (b : UInt8) : (ofByte b).toNat = b.toNat := by
  have hb := b.toNat_lt
  have hvalid : b.toNat.isValidChar := .inl (by omega)
  rw [ofByte, Char.ofNat, dif_pos hvalid]
  rfl

/-- A character of ASCII is one byte. -/
theorem utf8EncodeChar_ascii (h : c.toNat < 128) : ∃ b, String.utf8EncodeChar c = [b] ∧ ofByte b = c := by
  have hle : c.val.toNat ≤ 127 := by exact Nat.le_of_lt_succ h
  refine ⟨UInt8.ofNat c.val.toNat, by simp only [String.utf8EncodeChar, hle, if_true], ?_⟩
  apply Char.toNat_inj.1
  rw [toNat_ofByte, UInt8.toNat_ofNat_of_lt' (Nat.lt_of_le_of_lt hle (by decide))]
  rfl

/-- A character beyond ASCII has only bytes beyond ASCII. -/
theorem le_of_mem_utf8EncodeChar (h : 128 ≤ c.toNat) (hb : b ∈ String.utf8EncodeChar c) : 128 ≤ b.toNat := by
  have hle : ¬c.val.toNat ≤ 127 := by exact Nat.not_le_of_lt h
  rw [String.utf8EncodeChar] at hb
  simp only [hle, if_false] at hb
  split at hb
  · simp at hb
    rcases hb with rfl | rfl <;> simp <;> omega
  · split at hb
    · simp at hb
      rcases hb with rfl | rfl | rfl <;> simp <;> omega
    · simp at hb
      rcases hb with rfl | rfl | rfl | rfl <;> simp <;> omega

/-- What holds of ASCII only is seen in the bytes. -/
theorem seen_of_ascii (h : ∀ c, p c → c.toNat < 128) : Seen p := by
  intro c b hb
  by_cases hc : c.toNat < 128
  · obtain ⟨b', henc, hb'⟩ := utf8EncodeChar_ascii hc
    rw [henc, mem_singleton] at hb
    rw [hb, hb']
  · have hbyte : ¬(ofByte b).toNat < 128 := by
      have hle := le_of_mem_utf8EncodeChar (Nat.le_of_not_lt hc) hb
      rw [toNat_ofByte]
      omega
    rw [Bool.eq_false_iff.2 fun hp => hc (h c hp), Bool.eq_false_iff.2 fun hp => hbyte (h _ hp)]

theorem seen_eq (h : d.toNat < 128) : Seen (· == d) :=
  seen_of_ascii fun c hc => by rwa [beq_iff_eq.1 hc]

theorem ofByte_eq_iff (hd : d.toNat < 128) (hb : b ∈ String.utf8EncodeChar c) : ofByte b = d ↔ c = d := by
  simpa using Bool.eq_iff_iff.1 (seen_eq hd c b hb)

theorem length_toUtf8 (t : Text) : (toUtf8 t).length = byteSize t := by
  induction t with
  | nil => rfl
  | cons c t ih =>
    rw [toUtf8, flatMap_cons, length_append, String.length_utf8EncodeChar, ← toUtf8, ih]
    rfl

theorem toUtf8_append (s t : Text) : toUtf8 (s ++ t) = toUtf8 s ++ toUtf8 t :=
  flatMap_append

theorem byteSize_cons (c : Char) (t : Text) : byteSize (c :: t) = c.utf8Size + byteSize t :=
  rfl

/-! ## The cursor -/

/-- The byte at a place, as a character. -/
def byteAt? (x : Text) (pos : Nat) : Option Char :=
  (toUtf8 x)[pos]?.map ofByte

theorem byteAt?_append (a t : Text) (i : Nat) : byteAt? (a ++ t) (byteSize a + i) = (toUtf8 t)[i]?.map ofByte := by
  rw [byteAt?, toUtf8_append, ← length_toUtf8, getElem?_append_right (Nat.le_add_right _ _), Nat.add_sub_cancel_left]

theorem lt_of_byteAt? (h : byteAt? x pos = some c) : pos < byteSize x := by
  obtain ⟨b, hb, -⟩ := Option.map_eq_some_iff.1 h
  rw [← length_toUtf8]
  exact (List.getElem?_eq_some_iff.1 hb).1

/-- A byte of a character, and of no other. -/
theorem exists_byteAt? (a : Text) (c : Char) (t : Text) (h : i < c.utf8Size) :
    ∃ b ∈ String.utf8EncodeChar c, byteAt? (a ++ c :: t) (byteSize a + i) = some (ofByte b) := by
  rw [← String.length_utf8EncodeChar] at h
  refine ⟨_, getElem_mem h, ?_⟩
  rw [byteAt?_append, toUtf8, flatMap_cons, getElem?_append_left h, getElem?_eq_getElem h]
  rfl

/-- The next byte satisfies what the next character does. -/
theorem any_byteAt? (hp : Seen p) (a t : Text) : (byteAt? (a ++ t) (byteSize a)).any p = t.head?.any p := by
  cases t with
  | nil =>
    have hnone : byteAt? (a ++ []) (byteSize a) = none := byteAt?_append a [] 0
    rw [hnone]
    rfl
  | cons c t =>
    obtain ⟨b, hb, hat⟩ := exists_byteAt? a c t (Char.utf8Size_pos c)
    rw [Nat.add_zero] at hat
    rw [hat, Option.any_some, hp c b hb]
    rfl

/-- The place of the first byte from `pos` on that does not satisfy `p`. -/
def skipBytes (x : Text) (p : Char → Bool) (pos : Nat) : Nat :=
  pos + (((toUtf8 x).drop pos).takeWhile (p ∘ ofByte)).length

theorem le_skipBytes : pos ≤ skipBytes x p pos :=
  Nat.le_add_right _ _

/-- The bytes that satisfy `p` are those of the characters that do. -/
theorem takeWhile_toUtf8 (hp : Seen p) (t : Text) : (toUtf8 t).takeWhile (p ∘ ofByte) = toUtf8 (t.takeWhile p) := by
  induction t with
  | nil => rfl
  | cons c t ih =>
    rw [toUtf8, flatMap_cons, ← toUtf8]
    cases hc : p c with
    | true =>
      have hall : ∀ b ∈ String.utf8EncodeChar c, (p ∘ ofByte) b := fun b hb => (hp c b hb).trans hc
      rw [takeWhile_append_of_pos hall, ih, takeWhile_cons_of_pos hc]
      rfl
    | false =>
      obtain ⟨b, bs, hbs⟩ := exists_cons_of_ne_nil (String.utf8EncodeChar_ne_nil (c := c))
      have hb := hp c b (by rw [hbs]; exact mem_cons_self)
      rw [hbs, cons_append, takeWhile_cons_of_neg (by rw [Function.comp, hb, hc]; exact Bool.false_ne_true),
        takeWhile_cons_of_neg (by rw [hc]; exact Bool.false_ne_true)]
      rfl

/-- The cursor stops at the first character that does not satisfy `p`. -/
theorem skipBytes_append (hp : Seen p) (a t : Text) : skipBytes (a ++ t) p (byteSize a) = byteSize (a ++ t.takeWhile p) := by
  rw [skipBytes, toUtf8_append, ← length_toUtf8, drop_left, takeWhile_toUtf8 hp, length_toUtf8, length_toUtf8, byteSize_append]

/-- The end of a literal from `pos` on. A backslash moves the cursor two bytes on, wherever that is. -/
def quotedStop (x : Text) (q : Char) (pos : Nat) : Nat :=
  match h : byteAt? x pos with
  | none => byteSize x
  | some c =>
    have := lt_of_byteAt? h
    if c = '\\' then quotedStop x q (pos + 2)
    else if c = '\n' then pos
    else if c = q then pos + 1
    else quotedStop x q (pos + 1)
termination_by byteSize x - pos

/-- The end of a directive that starts at `start`, from its line at `pos` on. -/
def directiveStop (x : Text) (start pos : Nat) : Option Nat :=
  match slice? x start (skipBytes x (· ≠ '\n') pos) with
  | none => none
  | some written =>
    if h : isContinued written ∧ skipBytes x (· ≠ '\n') pos < byteSize x then directiveStop x start (skipBytes x (· ≠ '\n') pos + 1)
    else some (skipBytes x (· ≠ '\n') pos)
termination_by byteSize x - pos
decreasing_by
  have hle : pos ≤ skipBytes x (· ≠ '\n') pos := le_skipBytes
  omega

/-- If a number goes on with `c`, given the bytes around it. -/
def goesOn (hex : Bool) (prev next : Option Char) (c : Char) : Bool :=
  let sign := (c == '+' || c == '-') && prev.any (fun e => e == 'e' || e == 'E' || e == 'p' || e == 'P') && !hex
  let separator := c == '\'' && next.any Char.isAlphanum
  c.isAlphanum || c == '.' || c == '_' || sign || separator

/-- The end of a number that starts at `start`, from `pos` on. -/
def numberStop (x : Text) (start pos : Nat) : Option Nat :=
  match h : byteAt? x pos with
  | none => some pos
  | some c =>
    have := lt_of_byteAt? h
    match slice? x start pos with
    | none => none
    | some written =>
      if goesOn (startsWith written "0x") (byteAt? x (pos - 1)) (byteAt? x (pos + 1)) c then numberStop x start (pos + 1)
      else some pos
termination_by byteSize x - pos

/-- The kind of the token that starts at a place with the byte `c`, and where the cursor stops after it. -/
def tokenStop? (x : Text) (lineStart : Bool) (pos : Nat) (c : Char) : Option (TokenKind × Nat) :=
  let next := byteAt? x (pos + 1)
  if startsSpace c then some (.space, skipBytes x isSpace pos)
  else if c = '/' ∧ next = some '/' then some (.comment, skipBytes x (· ≠ '\n') pos)
  else if c = '/' ∧ next = some '*' then
    (slice? x (pos + 2) (byteSize x)).map fun rest =>
      (.comment, (cut? "*/" rest).elim (byteSize x) fun found => pos + 2 + byteSize found.1 + 2)
  else if c = '#' ∧ lineStart then (directiveStop x pos pos).map (.directive, ·)
  else if c = '"' then some (.string, quotedStop x '"' (pos + 1))
  else if c = '\'' then some (.char, quotedStop x '\'' (pos + 1))
  else if startsIdent c then some (.ident, skipBytes x continuesIdent pos)
  else if c.isDigit ∨ (c = '.' ∧ next.any Char.isDigit) then (numberStop x pos (pos + 1)).map (.number, ·)
  else if (c = ':' ∧ next = some ':') ∨ (c = '-' ∧ next = some '>') then some (.punct, pos + 2)
  else (slice? x pos (byteSize x)).map fun rest => (.punct, pos + rest.head?.elim 1 Char.utf8Size)

/-- The tokens from a place on. There are none if a slice is not one between characters or if the cursor does not move. -/
def scanBytes (x : Text) (lineStart : Bool) (pos : Nat) : Option (List Token) :=
  match h : byteAt? x pos with
  | none => some []
  | some c =>
    have := lt_of_byteAt? h
    match tokenStop? x lineStart pos c with
    | none => none
    | some (kind, stop) =>
      match slice? x pos stop with
      | none => none
      | some text =>
        if pos < stop then
          (scanBytes x (lineStartAfter lineStart ⟨kind, text, pos⟩) stop).map (⟨kind, text, pos⟩ :: ·)
        else none
termination_by byteSize x - pos

/-! ## Where the cursor stops -/

theorem utf8Size_ascii (h : c.toNat < 128) : c.utf8Size = 1 := by
  obtain ⟨b, hb, -⟩ := utf8EncodeChar_ascii h
  rw [← String.length_utf8EncodeChar, hb]
  rfl

theorem byteSize_concat (h : c.toNat < 128) (a : Text) : byteSize (a ++ [c]) = byteSize a + 1 := by
  rw [byteSize_append, byteSize_cons, utf8Size_ascii h]
  rfl

theorem byteAt?_ascii (h : c.toNat < 128) (a t : Text) : byteAt? (a ++ c :: t) (byteSize a) = some c := by
  obtain ⟨b, hb, hbc⟩ := utf8EncodeChar_ascii h
  have hat := byteAt?_append a (c :: t) 0
  rw [toUtf8, flatMap_cons, hb] at hat
  exact hat.trans (congrArg some hbc)

theorem byteAt?_of_le (h : byteSize x ≤ pos) : byteAt? x pos = none := by
  rw [byteAt?, List.getElem?_eq_none (by rwa [length_toUtf8])]
  rfl

section quoted

variable {q : Char}

theorem quotedStop_of_none (h : byteAt? x pos = none) : quotedStop x q pos = byteSize x := by
  rw [quotedStop]
  split
  · rfl
  next hs => cases h.symm.trans hs

theorem quotedStop_of_some (h : byteAt? x pos = some c) : quotedStop x q pos =
    if c = '\\' then quotedStop x q (pos + 2) else if c = '\n' then pos else if c = q then pos + 1
    else quotedStop x q (pos + 1) := by
  rw [quotedStop]
  split
  next hn => cases h.symm.trans hn
  next hs =>
    cases h.symm.trans hs
    rfl

/-- From within a character that ends nothing the cursor comes to its end. -/
theorem quotedStop_within (hq : q.toNat < 128) (hc : c ≠ '\\' ∧ c ≠ '\n' ∧ c ≠ q) (a t : Text) (hi : i ≤ c.utf8Size) :
    quotedStop (a ++ c :: t) q (byteSize a + i) = quotedStop (a ++ c :: t) q (byteSize (a ++ [c])) := by
  induction hn : c.utf8Size - i generalizing i with
  | zero =>
    obtain rfl : i = c.utf8Size := by omega
    rw [byteSize_append]
    rfl
  | succ n ih =>
    obtain ⟨b, hb, hat⟩ := exists_byteAt? a c t (i := i) (by omega)
    rw [quotedStop_of_some hat, if_neg (by rw [ofByte_eq_iff (by decide) hb]; exact hc.1),
      if_neg (by rw [ofByte_eq_iff (by decide) hb]; exact hc.2.1), if_neg (by rw [ofByte_eq_iff hq hb]; exact hc.2.2),
      Nat.add_assoc, ih (by omega) (by omega)]

/-- After a backslash the cursor may land within a character. It still comes to the character's end. -/
theorem quotedStop_escaped (hq : q.toNat < 128) (a : Text) (d : Char) (t : Text) :
    quotedStop (a ++ '\\' :: d :: t) q (byteSize a) = quotedStop (a ++ '\\' :: d :: t) q (byteSize (a ++ ['\\', d])) := by
  rw [quotedStop_of_some (byteAt?_ascii (by decide) a _), if_pos rfl]
  by_cases hd : d.toNat < 128
  · rw [byteSize_append, byteSize_cons, byteSize_cons, utf8Size_ascii hd]
    rfl
  · have hne (e : Char) (he : e.toNat < 128) : d ≠ e := fun h => hd (h ▸ he)
    have hwithin := quotedStop_within hq ⟨hne '\\' (by decide), hne '\n' (by decide), hne q hq⟩ (a ++ ['\\']) t
      (i := 1) (Char.utf8Size_pos d)
    simpa only [byteSize_concat (c := '\\') (by decide), append_assoc, cons_append, nil_append] using hwithin

/-- The cursor stops after a literal where the literal ends. -/
theorem quotedStop_append (hq : q.toNat < 128) (a t : Text) :
    quotedStop (a ++ t) q (byteSize a) = byteSize (a ++ t.take (quotedLength q t)) := by
  induction hn : t.length using Nat.strongRecOn generalizing a t with
  | ind n ih =>
    cases t with
    | nil => rw [quotedStop_of_none (byteAt?_of_le (by simp))]; rfl
    | cons c t =>
      have hstep (u : Text) (hu : u.length < n) (w : Text) :
          quotedStop ((a ++ w) ++ u) q (byteSize (a ++ w)) = byteSize ((a ++ w) ++ u.take (quotedLength q u)) :=
        ih u.length hu (a ++ w) u rfl
      by_cases hc : c = '\\'
      · subst hc
        cases t with
        | nil =>
          rw [quotedStop_of_some (byteAt?_ascii (by decide) a []), if_pos rfl,
            quotedStop_of_none (byteAt?_of_le (by rw [byteSize_append]; exact Nat.le_add_right _ 1))]
          rfl
        | cons d t =>
          have hrest := hstep t (by simp at hn; omega) ['\\', d]
          rw [quotedStop_escaped hq]
          simpa [quotedLength] using hrest
      · have hrest := hstep t (by simp at hn; omega) [c]
        rw [quotedLength_cons hc]
        by_cases hfeed : c = '\n'
        · subst hfeed
          rw [quotedStop_of_some (byteAt?_ascii (by decide) a t), if_neg hc, if_pos rfl, if_pos rfl, take_zero, append_nil]
        · by_cases hend : c = q
          · subst hend
            rw [quotedStop_of_some (byteAt?_ascii hq a t), if_neg hc, if_neg hfeed, if_pos rfl, if_neg hfeed, if_pos rfl,
              byteSize_append, take_succ_cons, take_zero, byteSize_cons, utf8Size_ascii hq]
            rfl
          · have hwithin := quotedStop_within hq ⟨hc, hfeed, hend⟩ a t (Nat.zero_le _)
            rw [if_neg hfeed, if_neg hend, ← Nat.add_zero (byteSize a), hwithin]
            simpa using hrest

end quoted

/-- A line is continued by its own end, whatever lines stand before it. -/
theorem isContinued_lines {w : Text} (hw : w = [] ∨ ∃ v, w = v ++ ['\n']) (l : Text) : isContinued (w ++ l) = isContinued l := by
  obtain rfl | ⟨v, rfl⟩ := hw
  · rfl
  · rw [isContinued, isContinued, append_assoc, reverse_append, singleton_append, reverse_cons, append_assoc, dropWhile_append]
    cases l.reverse.dropWhile (· = '\r') with
    | nil => rfl
    | cons c t => rfl

theorem seen_line : Seen (· ≠ '\n') := fun c b hb => by
  have hiff : ofByte b = '\n' ↔ c = '\n' := ofByte_eq_iff (by decide) hb
  simp [hiff]

/-- The cursor stops after a directive where the directive ends. Lines `w` of it are read. -/
theorem directiveStop_append (a w t : Text) (hw : w = [] ∨ ∃ v, w = v ++ ['\n']) :
    directiveStop (a ++ w ++ t) (byteSize a) (byteSize (a ++ w)) = some (byteSize (a ++ w ++ t.take (directiveLength t))) := by
  induction t using line_induction generalizing w with
  | line l hl =>
    have hskip : skipBytes (a ++ w ++ l) (· ≠ '\n') (byteSize (a ++ w)) = byteSize (a ++ w ++ l) := by
      have htake := takeWhile_line hl []
      rw [append_nil, takeWhile_nil, append_nil] at htake
      rw [skipBytes_append seen_line, htake]
    have hslice : slice? (a ++ w ++ l) (byteSize a) (byteSize (a ++ w ++ l)) = some (w ++ l) := by
      simpa using slice?_byteSize a (w ++ l)
    rw [directiveStop, hskip, hslice]
    simp [directiveLength_line hl]
  | feed l r hl ih =>
    have hskip : skipBytes (a ++ w ++ (l ++ '\n' :: r)) (· ≠ '\n') (byteSize (a ++ w)) = byteSize (a ++ w ++ l) := by
      rw [skipBytes_append seen_line, takeWhile_line hl, takeWhile_cons_of_neg (by decide), append_nil]
    have hslice : slice? (a ++ w ++ (l ++ '\n' :: r)) (byteSize a) (byteSize (a ++ w ++ l)) = some (w ++ l) := by
      simpa using slice?_append a (w ++ l) ('\n' :: r)
    have hfeed : byteSize (a ++ (w ++ (l ++ ['\n']))) = byteSize (a ++ w ++ l) + 1 := by
      rw [← append_assoc, ← append_assoc, byteSize_concat (by decide)]
    have hlt : byteSize (a ++ w ++ l) < byteSize (a ++ w ++ (l ++ '\n' :: r)) := by
      rw [← append_assoc (a ++ w), byteSize_append (a ++ w ++ l)]
      exact Nat.lt_add_of_pos_right (byteSize_pos (cons_ne_nil _ _))
    rw [directiveStop, hskip, hslice, directiveLength_feed hl]
    simp only [isContinued_lines hw l, hlt, and_true]
    split
    · have hnext := ih (w ++ (l ++ ['\n'])) (.inr ⟨w ++ l, by simp⟩)
      rw [hfeed] at hnext
      rw [Nat.add_assoc, take_length_add_append, Nat.add_comm 1, take_succ_cons]
      simpa using hnext
    · simp

/-- The end of a comment is where the first `*/` after its start is. -/
theorem take_commentLength (t : Text) : t.take (commentLength t) = (cut? "*/" t).elim t fun found => found.1 ++ "*/" := by
  fun_induction commentLength t with
  | case1 => rfl
  | case2 t => rfl
  | case3 c t hne ih =>
    have hno : after? "*/" (c :: t) = none := by
      cases t with
      | nil => simp [after?]
      | cons d t =>
        have hcd : '*' = c → '/' ≠ d := fun hc hd => hne t hc.symm (by rw [← hd])
        simpa [after?] using hcd
    rw [take_succ_cons, ih, cut?, hno]
    cases cut? "*/" t with
    | none => rfl
    | some found => rfl

/-- Two characters tell whether a text starts with `0x`. -/
theorem startsWith_hex (c : Char) (t : Text) : startsWith (c :: t) "0x" = (c == '0' && t.head? == some 'x') := by
  change (after? ['0', 'x'] (c :: t)).isSome = _
  by_cases hc : '0' = c
  · subst hc
    cases t with
    | nil => rfl
    | cons d t =>
      by_cases hd : 'x' = d
      · subst hd
        rfl
      · simp [after?, hd, Ne.symm hd]
  · simp [after?, hc, Ne.symm hc]

/-- Two characters tell whether a number is one in base sixteen. -/
theorem startsWith_append {w : Text} (h : 2 ≤ w.length) (t : Text) : startsWith (w ++ t) "0x" = startsWith w "0x" := by
  match w, h with
  | c :: d :: w, _ => rw [cons_append, startsWith_hex, startsWith_hex]; rfl

theorem numberStop_of_none {start : Nat} (h : byteAt? x pos = none) : numberStop x start pos = some pos := by
  rw [numberStop]
  split
  · rfl
  next hs => cases h.symm.trans hs

theorem numberStop_of_some {start : Nat} {written : Text} (h : byteAt? x pos = some c) (hs : slice? x start pos = some written) :
    numberStop x start pos =
      if goesOn (startsWith written "0x") (byteAt? x (pos - 1)) (byteAt? x (pos + 1)) c then numberStop x start (pos + 1)
      else some pos := by
  rw [numberStop]
  split
  next hn => cases h.symm.trans hn
  next hc =>
    cases h.symm.trans hc
    rw [hs]

theorem isAlphanum_ascii (c : Char) (h : c.isAlphanum) : c.toNat < 128 := by
  simp only [Char.isAlphanum, Char.isDigit, Bool.or_eq_true, isAlpha_iff, Bool.and_eq_true, decide_eq_true_eq,
    UInt32.le_iff_toNat_le] at h
  have h9 : '9'.val.toNat = 57 := rfl
  have hc : c.toNat = c.val.toNat := rfl
  omega

/-- A number goes on with ASCII only. -/
theorem goesOn_ascii {hex : Bool} {prev next : Option Char} (h : goesOn hex prev next c) : c.toNat < 128 := by
  simp only [goesOn, Bool.or_eq_true, Bool.and_eq_true, beq_iff_eq] at h
  rcases h with (((h | h) | h) | h) | h
  · exact isAlphanum_ascii c h
  · rw [h]; decide
  · rw [h]; decide
  · rcases h.1.1 with h | h <;> rw [h] <;> decide
  · rw [h.1]; decide

/-- A number goes on with a byte as with its character. The byte after it counts only after a quote, which is one byte. -/
theorem goesOn_ofByte {hex : Bool} {prev next next' : Option Char} (hb : b ∈ String.utf8EncodeChar c)
    (hnext : c = '\'' → next.any Char.isAlphanum = next'.any Char.isAlphanum) :
    goesOn hex prev next (ofByte b) = goesOn hex prev next' c := by
  have hseen (e : Char) (he : e.toNat < 128) : (ofByte b == e) = (c == e) := seen_eq he c b hb
  have hsep : (c == '\'' && next.any Char.isAlphanum) = (c == '\'' && next'.any Char.isAlphanum) := by
    by_cases hq : c = '\''
    · rw [hnext hq]
    · rw [beq_eq_false_iff_ne.2 hq, Bool.false_and, Bool.false_and]
  simp only [goesOn, seen_of_ascii isAlphanum_ascii c b hb, hseen '.' (by decide), hseen '_' (by decide), hseen '+' (by decide),
    hseen '-' (by decide), hseen '\'' (by decide), hsep]

/-- The cursor stops after a number where the number ends. Of it `v` and `prev` are read. -/
theorem numberStop_append (a v t : Text) (prev : Char) (hprev : prev.toNat < 128)
    (hlen : v ≠ [] ∨ (prev == 'e' || prev == 'E' || prev == 'p' || prev == 'P') = false) :
    numberStop (a ++ (v ++ [prev]) ++ t) (byteSize a) (byteSize (a ++ (v ++ [prev]))) =
      some (byteSize (a ++ (v ++ [prev]) ++ t.take (numberLength (startsWith (v ++ [prev] ++ t) "0x") prev t))) := by
  induction t generalizing v prev with
  | nil => rw [numberStop_of_none (byteAt?_of_le (by simp)), take_nil, append_nil]
  | cons c t ih =>
    obtain ⟨b, hb, hat⟩ := exists_byteAt? (a ++ (v ++ [prev])) c t (Char.utf8Size_pos c)
    rw [Nat.add_zero] at hat
    have hback : byteAt? (a ++ (v ++ [prev]) ++ c :: t) (byteSize (a ++ (v ++ [prev])) - 1) = some prev := by
      rw [← append_assoc, byteSize_concat hprev, Nat.add_sub_cancel]
      simpa using byteAt?_ascii hprev (a ++ v) (c :: t)
    have hnext (hc : c.toNat < 128) : byteSize (a ++ (v ++ [prev])) + 1 = byteSize (a ++ (v ++ [prev] ++ [c])) := by
      rw [← append_assoc a (v ++ [prev]), byteSize_concat hc]
    have hfollow (hc : c = '\'') : (byteAt? (a ++ (v ++ [prev]) ++ c :: t) (byteSize (a ++ (v ++ [prev])) + 1)).any
        Char.isAlphanum = t.head?.any Char.isAlphanum := by
      rw [hnext (hc ▸ by decide), ← any_byteAt? (seen_of_ascii isAlphanum_ascii) (a ++ (v ++ [prev] ++ [c])) t]
      simp
    have hhex : goesOn (startsWith (v ++ [prev]) "0x") (some prev) t.head? c =
        goesOn (startsWith (v ++ [prev] ++ c :: t) "0x") (some prev) t.head? c := by
      obtain hv | he := hlen
      · have hlong : 2 ≤ (v ++ [prev]).length := by
          have hpos := length_pos_of_ne_nil hv
          rw [length_append, length_singleton]
          omega
        rw [startsWith_append hlong]
      · simp only [goesOn, Option.any_some, he, Bool.and_false, Bool.false_and]
    rw [numberStop_of_some hat (slice?_append a (v ++ [prev]) (c :: t)), hback, goesOn_ofByte hb hfollow, hhex]
    change _ = some (byteSize (_ ++ take (if goesOn _ (some prev) t.head? c then _ else 0) _))
    split
    next hgo =>
      have hc := goesOn_ascii hgo
      have hrest := ih (v ++ [prev]) c hc (.inl (by simp))
      rw [hnext hc, take_succ_cons]
      simpa using hrest
    next => rw [take_zero, append_nil]

/-! ## The tokens of the bytes -/

theorem isSpace_ascii (c : Char) (h : isSpace c) : c.toNat < 128 := by
  simp only [isSpace, Bool.or_eq_true, beq_iff_eq] at h
  rcases h with (((rfl | rfl) | rfl) | rfl) | rfl <;> decide

theorem continuesIdent_ascii (c : Char) (h : continuesIdent c) : c.toNat < 128 := by
  rw [continuesIdent, Bool.or_eq_true, beq_iff_eq] at h
  obtain h | rfl := h
  · exact isAlphanum_ascii c h
  · decide

theorem startsIdent_ascii (c : Char) (h : startsIdent c) : c.toNat < 128 :=
  continuesIdent_ascii c (continuesIdent_of_startsIdent h)

theorem isDigit_ascii (c : Char) (h : c.isDigit) : c.toNat < 128 :=
  isAlphanum_ascii c (isAlphanum_of_isDigit h)

/-- A byte starts the same token as its character. -/
theorem tokenStop?_ofByte (hb : b ∈ String.utf8EncodeChar c) (lineStart : Bool) :
    tokenStop? x lineStart pos (ofByte b) = tokenStop? x lineStart pos c := by
  have hseen (p : Char → Bool) (hp : ∀ c, p c → c.toNat < 128) : p (ofByte b) = p c := seen_of_ascii hp c b hb
  have heq (e : Char) (he : e.toNat < 128) : ofByte b = e ↔ c = e := ofByte_eq_iff he hb
  simp only [tokenStop?, hseen startsSpace fun c h => isSpace_ascii c (isSpace_of_startsSpace h), heq '/' (by decide),
    heq '#' (by decide), heq '"' (by decide), heq '\'' (by decide), hseen startsIdent startsIdent_ascii,
    hseen Char.isDigit isDigit_ascii, heq '.' (by decide), heq ':' (by decide), heq '-' (by decide)]

theorem skipBytes_cons (hp : Seen p) (hc : p c) (a rest : Text) :
    skipBytes (a ++ c :: rest) p (byteSize a) = byteSize (a ++ c :: rest.take (rest.takeWhile p).length) := by
  rw [skipBytes_append hp, takeWhile_cons_of_pos hc, ← prefix_iff_eq_take.1 ( takeWhile_prefix p)]

/-- The cursor stops after a comment where the comment ends. -/
theorem blockStop_append (a r : Text) : (slice? (a ++ '/' :: '*' :: r) (byteSize a + 2) (byteSize (a ++ '/' :: '*' :: r))).map
    (fun rest => (TokenKind.comment, (cut? "*/" rest).elim (byteSize (a ++ '/' :: '*' :: r)) fun found =>
      byteSize a + 2 + byteSize found.1 + 2)) = some (.comment, byteSize (a ++ '/' :: '*' :: r.take (commentLength r))) := by
  have hpos : byteSize a + 2 = byteSize (a ++ ['/', '*']) := (byteSize_append a ['/', '*']).symm
  have hslice := slice?_byteSize (a ++ ['/', '*']) r
  rw [← hpos, append_assoc] at hslice
  simp only [cons_append, nil_append] at hslice
  rw [hslice, Option.map_some, take_commentLength]
  cases cut? "*/" r with
  | none => rfl
  | some found =>
    have hsize : byteSize (a ++ ['/', '*'] ++ (found.1 ++ "*/")) = byteSize a + 2 + byteSize found.1 + 2 := by
      rw [byteSize_append, ← hpos, byteSize_append, ← Nat.add_assoc]
      rfl
    rw [append_assoc] at hsize
    exact congrArg (fun n => some (TokenKind.comment, n)) hsize.symm

/-- The cursor stops after the token at its place. -/
theorem tokenStop?_append (lineStart : Bool) (a : Text) (c : Char) (rest : Text) :
    tokenStop? (a ++ c :: rest) lineStart (byteSize a) c =
      some ((lexeme lineStart c rest).1, byteSize (a ++ c :: rest.take (lexeme lineStart c rest).2)) := by
  have hnext (hc : c.toNat < 128) : byteSize a + 1 = byteSize (a ++ [c]) := (byteSize_concat hc a).symm
  have hany (hc : c.toNat < 128) (p : Char → Bool) (hp : ∀ c, p c → c.toNat < 128) :
      (byteAt? (a ++ c :: rest) (byteSize a + 1)).any p = rest.head?.any p := by
    have h := any_byteAt? (seen_of_ascii hp) (a ++ [c]) rest
    rw [← hnext hc] at h
    simpa using h
  have hpair (d e : Char) (hd : d.toNat < 128) (he : e.toNat < 128) :
      c = d ∧ byteAt? (a ++ c :: rest) (byteSize a + 1) = some e ↔ c = d ∧ rest.head? = some e := by
    refine and_congr_right fun hcd => ?_
    have h := hany (hcd ▸ hd) (· == e) fun c hc => by rwa [beq_iff_eq.1 hc]
    simpa [Option.any_eq_true] using Bool.eq_iff_iff.1 h
  have hpoint : c = '.' ∧ (byteAt? (a ++ c :: rest) (byteSize a + 1)).any Char.isDigit ↔ c = '.' ∧ rest.head?.any Char.isDigit :=
    and_congr_right fun hc => by rw [hany (hc ▸ by decide) _ isDigit_ascii]
  simp only [tokenStop?, lexeme, hpair '/' '/' (by decide) (by decide), hpair '/' '*' (by decide) (by decide), hpoint,
    hpair ':' ':' (by decide) (by decide), hpair '-' '>' (by decide) (by decide)]
  split_ifs with hsp hl hblk hdir hstr hchar hid hnum hp
  · rw [skipBytes_cons (seen_of_ascii isSpace_ascii) (isSpace_of_startsSpace hsp)]
  · rw [skipBytes_cons seen_line (by rw [hl.1]; rfl)]
    rfl
  · obtain ⟨rfl, hhead⟩ := hblk
    obtain ⟨r, rfl⟩ := head?_eq_some_iff.1 hhead
    exact blockStop_append a r
  · obtain ⟨rfl, -⟩ := hdir
    have hstop := directiveStop_append a [] ('#' :: rest) (.inl rfl)
    rw [append_nil] at hstop
    obtain ⟨n, hn⟩ := Nat.exists_eq_succ_of_ne_zero (Nat.ne_of_gt (directiveLength_pos (by decide : '#' ≠ '\n') rest))
    rw [hstop, Option.map_some, hn, take_succ_cons]
    rfl
  · subst hstr
    have hstop := quotedStop_append (q := '"') (by decide) (a ++ ['"']) rest
    rw [← hnext (by decide), append_assoc, append_assoc] at hstop
    exact congrArg (fun n => some (TokenKind.string, n)) hstop
  · subst hchar
    have hstop := quotedStop_append (q := '\'') (by decide) (a ++ ['\'']) rest
    rw [← hnext (by decide), append_assoc, append_assoc] at hstop
    exact congrArg (fun n => some (TokenKind.char, n)) hstop
  · rw [skipBytes_cons (seen_of_ascii continuesIdent_ascii) (continuesIdent_of_startsIdent hid)]
  · have hc : c.toNat < 128 := hnum.elim (isDigit_ascii c) fun h => by rw [h.1]; decide
    have hmark : (c == 'e' || c == 'E' || c == 'p' || c == 'P') = false := by
      refine Bool.eq_false_iff.2 fun h => ?_
      simp only [Bool.or_eq_true, beq_iff_eq] at h
      rcases h with ((rfl | rfl) | rfl) | rfl <;> simp at hnum
    have hstop := numberStop_append a [] rest c hc (.inr hmark)
    rw [nil_append, ← hnext hc, append_assoc, append_assoc, singleton_append, singleton_append, startsWith_hex] at hstop
    rw [hstop]
    rfl
  · have hsize : ∃ d r, rest = d :: r ∧ byteSize (a ++ [c, d]) = byteSize a + 2 := by
      obtain ⟨rfl, hh⟩ | ⟨rfl, hh⟩ := hp <;> obtain ⟨r, rfl⟩ := head?_eq_some_iff.1 hh <;>
        exact ⟨_, r, rfl, byteSize_append a _⟩
    obtain ⟨d, r, rfl, hsize⟩ := hsize
    rw [← hsize]
    rfl
  · have hslice := slice?_byteSize a (c :: rest)
    rw [hslice, Option.map_some, byteSize_append, take_zero]
    rfl

theorem scanBytes_of_none {lineStart : Bool} (h : byteAt? x pos = none) : scanBytes x lineStart pos = some [] := by
  rw [scanBytes]
  split
  · rfl
  next hs => cases h.symm.trans hs

theorem scanBytes_of_some {lineStart : Bool} {kind : TokenKind} {stop : Nat} {text : Text} (h : byteAt? x pos = some c)
    (hstop : tokenStop? x lineStart pos c = some (kind, stop)) (hs : slice? x pos stop = some text) (hlt : pos < stop) :
    scanBytes x lineStart pos =
      (scanBytes x (lineStartAfter lineStart ⟨kind, text, pos⟩) stop).map (⟨kind, text, pos⟩ :: ·) := by
  rw [scanBytes]
  split
  next hn => cases h.symm.trans hn
  next hc =>
    cases h.symm.trans hc
    simp only [hstop, hs]
    rw [if_pos hlt]

/-- The loop over the bytes finds the tokens of the text: no slice cuts a character, and the cursor moves with each token. -/
theorem scanBytes_append (lineStart : Bool) (a t : Text) :
    scanBytes (a ++ t) lineStart (byteSize a) = some (tokenizeFrom lineStart (byteSize a) t) := by
  induction hn : t.length using Nat.strongRecOn generalizing lineStart a t with
  | ind n ih =>
    cases t with
    | nil => rw [scanBytes_of_none (byteAt?_of_le (by simp)), tokenizeFrom]
    | cons c rest =>
      obtain ⟨b, hb, hat⟩ := exists_byteAt? a c rest (Char.utf8Size_pos c)
      rw [Nat.add_zero] at hat
      have hstop := (tokenStop?_ofByte hb lineStart).trans (tokenStop?_append lineStart a c rest)
      generalize hlex : lexeme lineStart c rest = found at hstop
      obtain ⟨kind, m⟩ := found
      have hslice := slice?_append a (c :: rest.take m) (rest.drop m)
      rw [append_assoc, cons_append, take_append_drop] at hslice
      have hlt : byteSize a < byteSize (a ++ c :: rest.take m) := by
        rw [byteSize_append]
        exact Nat.lt_add_of_pos_right (byteSize_pos (cons_ne_nil _ _))
      have hrest := ih (rest.drop m).length (by rw [← hn, length_drop, length_cons]; omega)
        (lineStartAfter lineStart ⟨kind, c :: rest.take m, byteSize a⟩) (a ++ c :: rest.take m) (rest.drop m) rfl
      rw [append_assoc, cons_append, take_append_drop] at hrest
      rw [scanBytes_of_some hat hstop hslice hlt, hrest, tokenizeFrom, hlex, byteSize_append]
      rfl

/-- The byte cursor finds the tokens of a string, and they are a partition of it. No input is refused: this holds also where a literal
or a comment has no end. In a string that 32 bits can measure, 32 bits hold every place of a span. -/
theorem partitions_tokenize (s : String) (h : s.utf8ByteSize < 2 ^ 32) :
    scanBytes s.toList true 0 = some (tokenize s.toList) ∧ Partitions s (tokenize s.toList) ∧
      ∀ t ∈ tokenize s.toList, t.start < 2 ^ 32 ∧ t.stop < 2 ^ 32 := by
  have hp : Partitions s (tokenize s.toList) := partitions_of_tokenize s
  refine ⟨scanBytes_append true [] s.toList, hp, fun t ht => ?_⟩
  have hlt : t.start < t.stop := hp.nonempty t ht
  have hle : t.stop ≤ s.utf8ByteSize := hp.stop_le ht
  omega

/-- A continued directive, `\é` in a literal with no end, and a comment with none. -/
theorem partitions_tokenize_unterminated :
    let s : String := "#define A \\\n1\n\"\\é\n/*\\"
    s.utf8ByteSize < 2 ^ 32 ∧ scanBytes s.toList true 0 = some (tokenize s.toList) ∧ Partitions s (tokenize s.toList) ∧
      (tokenize s.toList).map (fun t => (t.kind, t.start)) =
        [(.directive, 0), (.space, 13), (.string, 14), (.space, 18), (.comment, 19)] := by
  intro s
  have hs : s.utf8ByteSize < 2 ^ 32 := by decide
  obtain ⟨hscan, hp, -⟩ := partitions_tokenize s hs
  exact ⟨hs, hscan, hp, by decide +kernel⟩

end Declass.Token
