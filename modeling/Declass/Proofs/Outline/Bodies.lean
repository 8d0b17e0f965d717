import Declass.Proofs.Outline.Heads
import Declass.Proofs.Token.Between

/-!
# Bodies are slices of the source

The bodies of an outline are slices of the source with balanced braces, one after the other, whatever the source is. Main statement:
`Outline.definitions_enclosed`.
-/

namespace Declass

open Fragment (isPunct_of_tok? ofText)

namespace Fragment

/-- A group is a stretch between two tokens. -/
def Bracketed.stretch {x : Text} {i j : Nat} (g : Bracketed x i j) : Stretch x i j g.opener g.closer :=
  ⟨g.before, g.inside, g.after, g.split, g.significant, g.first, g.last⟩

end Fragment

namespace Outline

open Token

variable {F : Fragment} {b : List Enclosing} {k : Nat} {t : Token} {s : Step} {d : Definition} {i j : Nat} {c : Char}

/-! ## Definitions that a step lists -/

/-- The body of the definition stands between the braces at two positions. -/
structure Delimits (F : Fragment) (d : Definition) (i j : Nat) : Prop where
  isOpen : F.isPunct i "\x7b" = true
  close : F.close? i = some j
  span : d.span = ⟨(F.tok? i).elim 0 stop, (F.tok? j).elim 0 start⟩
  body : d.body = F.between i j

theorem callableStep_definition {segments : List Text} {name : Text} (h : callableStep F b k segments name i j = some s)
    (hd : s.found = some (.definition d)) : ∃ p c, j < p ∧ Delimits F d p c ∧ s.next = c + 1 := by
  have haft := F.le_skipQualifiers (j + 1)
  simp only [callableStep] at h
  generalize hl : (if F.isPunct (F.skipQualifiers (j + 1)) ":" then F.bodyAfterInits? (F.skipQualifiers (j + 1) + 1)
    else none) = listed at h
  have hb : j < listed.getD (F.skipQualifiers (j + 1)) := by
    cases listed with
    | none =>
      rw [Option.getD_none]
      omega
    | some p =>
      split at hl
      · have hlt := Fragment.lt_of_bodyAfterInits? hl
        rw [Option.getD_some]
        omega
      · cases hl
  split at h
  · next ho =>
    split at h
    · cases h
    · next c hcl =>
      cases h
      cases hd
      exact ⟨_, c, hb, ⟨ho, hcl, rfl, rfl⟩, rfl⟩
  · cases h
    simp only [Option.map_eq_some_iff] at hd
    obtain ⟨g, -, hg⟩ := hd
    cases hg

theorem nameStep_definition (h : nameStep F b k = some s) (hd : s.found = some (.definition d)) :
    ∃ p c, k < p ∧ Delimits F d p c ∧ s.next = c + 1 := by
  simp only [nameStep] at h
  split at h
  · cases h
    cases hd
  next name hn =>
  have hch : k < (F.chain k).2 := by
    refine Fragment.lt_chain ?_
    intro hnil
    rw [hnil] at hn
    cases hn
  split at h
  · cases h
    cases hd
  split at h
  · cases h
    cases hd
  split at h
  · cases h
  next j hcl =>
  have hr := Fragment.lt_of_close? hcl
  obtain ⟨p, c, hlt, hdel, hnx⟩ := callableStep_definition h hd
  exact ⟨p, c, by omega, hdel, hnx⟩

/-- What a step lists is a block, an initializer in braces, or a name's. -/
theorem step_found {item : OutlineItem} (h : step F b k t = some s) (hi : s.found = some item) :
    s = leaveBlock b k t.stop ∨ (∃ g, F.braceInit? k = some g ∧ item = .global g) ∨ nameStep F b k = some s := by
  unfold step at h
  split at h
  · exact .inl (Option.some.inj h).symm
  split at h
  · cases h
    cases hi
  split at h
  · obtain ⟨j, -, hs⟩ := Option.bind_eq_some_iff.1 h
    cases hs
    cases hi
  split at h
  · cases h
    cases hi
  split at h
  · cases h
    cases hi
  split at h
  · obtain ⟨j, -, hs⟩ := Option.bind_eq_some_iff.1 h
    cases hs
    cases hi
  split at h
  · cases h
    unfold recordStep at hi
    split at hi
    · split at hi <;> cases hi
    · cases hi
  split at h
  · cases h
    obtain ⟨g, hg, rfl⟩ := Option.map_eq_some_iff.1 hi
    split at hg
    · exact .inr (.inl ⟨g, hg, rfl⟩)
    · cases hg
  split at h
  · exact .inr (.inr h)
  · cases h
    cases hi

/-- A step that lists a definition ends after the body's brace. -/
theorem step_definition (h : step F b k t = some s) (hd : s.found = some (.definition d)) :
    ∃ p c, k < p ∧ Delimits F d p c ∧ s.next = c + 1 := by
  rcases step_found h hd with rfl | ⟨g, -, hg⟩ | hn
  · unfold leaveBlock at hd
    split at hd <;> cases hd
  · cases hg
  · exact nameStep_definition hn hd

/-! ## Definitions that the pass lists -/

/-- The definitions among the items. -/
def definitionsOf (items : List OutlineItem) : List Definition :=
  (ofItems items).definitions

/-- The first definition's body ends before the second's starts. -/
def Precedes (F : Fragment) (d e : Definition) : Prop :=
  ∃ i j i' j', Delimits F d i j ∧ Delimits F e i' j' ∧ j < i'

/-- The bodies listed from `k` on stand in braces, one after the other. -/
theorem scan_definitions : (∀ d ∈ definitionsOf (scan F b k), ∃ i j, k < i ∧ Delimits F d i j) ∧
      (definitionsOf (scan F b k)).Pairwise (Precedes F) := by
  fun_induction scan F b k with
  | case1 | case2 => exact ⟨fun d hd => absurd hd List.not_mem_nil, .nil⟩
  | case3 b k t ht s hs ih =>
    obtain ⟨hall, hpr⟩ := ih
    have hlat : ∀ e ∈ definitionsOf (scan F s.blocks (max s.next (k + 1))), ∃ i j, k < i ∧ Delimits F e i j := by
      intro e he
      obtain ⟨i, j, hi, hdel⟩ := hall e he
      exact ⟨i, j, by omega, hdel⟩
    cases hfd : s.found with
    | none => exact ⟨hlat, hpr⟩
    | some item =>
      cases item with
      | classBlock | global => exact ⟨hlat, hpr⟩
      | definition d =>
        obtain ⟨p, c, hp, hd, hnx⟩ := step_definition hs hfd
        refine ⟨?_, .cons ?_ hpr⟩
        · intro e he
          rcases List.mem_cons.1 he with rfl | he
          · exact ⟨p, c, hp, hd⟩
          · exact hlat e he
        · intro e he
          obtain ⟨i, j, hi, hdel⟩ := hall e he
          exact ⟨p, c, i, j, hd, hdel, by omega⟩

/-! ## Slices of the source -/

/-- The definition's body is the slice between two braces that belong together, and the braces in it balance. -/
structure Encloses (s : String) (d : Definition) (opener closer : Token) : Prop where
  braces : opener.isPunct "\x7b" = true ∧ closer.isPunct "\x7d" = true
  matched : ∃ i j, (ofText s.toList).tok? i = some opener ∧ (ofText s.toList).tok? j = some closer ∧
    (ofText s.toList).close? i = some j
  span : d.span = ⟨opener.stop, closer.start⟩
  ordered : d.span.start ≤ d.span.stop
  before : d.span.start = opener.start + 1 ∧ String.Pos.Raw.extract s ⟨opener.start⟩ ⟨d.span.start⟩ = "\x7b"
  after : d.span.stop + 1 = closer.stop ∧ String.Pos.Raw.extract s ⟨d.span.stop⟩ ⟨closer.stop⟩ = "\x7d"
  body : String.Pos.Raw.extract s ⟨d.span.start⟩ ⟨d.span.stop⟩ = String.ofList d.body
  balanced : Bracket.curly.level 0 (lying d.span.start d.span.stop (tokenize s.toList)) = some 0

theorem stop_of_isPunct (hc : c.utf8Size = 1) (h : t.isPunct [c]) : t.stop = t.start + 1 := by
  rw [isPunct_iff] at h
  rw [stop, h.2, Text.byteSize, List.foldr_cons, List.foldr_nil, hc]

/-- The token of a one-character mark is that character of the source. -/
theorem extract_mark {s : String} (ht : t ∈ tokenize s.toList) (h : t.isPunct [c]) :
    String.Pos.Raw.extract s ⟨t.start⟩ ⟨t.stop⟩ = String.ofList [c] := by
  rw [isPunct_iff] at h
  rw [(partitions_of_tokenize s).slice t ht, h.2]

theorem encloses_of_delimits {s : String} (h : Delimits (ofText s.toList) d i j) :
    ∃ opener closer, (ofText s.toList).tok? i = some opener ∧ (ofText s.toList).tok? j = some closer ∧
      Encloses s d opener closer := by
  obtain ⟨g⟩ := Fragment.bracketed_of_close? h.close
  have hfst := g.tok?_first
  have hl := g.tok?_last
  have ho : g.opener.isPunct "\x7b" := by
    rw [← isPunct_of_tok? hfst]
    exact h.isOpen
  have hcur : g.bracket = .curly := by
    have hop := g.opened
    rw [(opened?_eq_some_iff (b := .curly)).2 ho] at hop
    exact (Option.some.inj hop).symm
  have hcl : g.closer.isPunct "\x7d" := by
    have hclo := g.closed
    rw [hcur] at hclo
    exact closed?_eq_some_iff.1 hclo
  have hspan : d.span = ⟨g.opener.stop, g.closer.start⟩ := by
    rw [h.span, hfst, hl]
    rfl
  have hmem : g.opener ∈ tokenize s.toList ∧ g.closer ∈ tokenize s.toList := by
    rw [g.split]
    simp
  have hins : lying g.opener.stop g.closer.start (tokenize s.toList) = g.inside := by
    rw [g.split]
    exact g.stretch.placed.lying_eq
  refine ⟨g.opener, g.closer, hfst, hl, ⟨ho, hcl⟩, ⟨i, j, hfst, hl, h.close⟩, hspan, ?_, ?_, ?_, ?_, ?_⟩
  · rw [hspan]
    exact g.stretch.stop_le_start
  · rw [hspan]
    exact ⟨stop_of_isPunct rfl ho, extract_mark hmem.1 ho⟩
  · rw [hspan]
    exact ⟨(stop_of_isPunct rfl hcl).symm, extract_mark hmem.2 hcl⟩
  · rw [hspan, h.body]
    simpa using g.stretch.slice
  · rw [hspan, hins, ← hcur]
    exact g.level

theorem span_lt_of_precedes {s : String} {e : Definition} (h : Precedes (ofText s.toList) d e) : d.span.stop < e.span.start := by
  obtain ⟨i, j, i', j', hd, he, hlt⟩ := h
  obtain ⟨_, closer, -, hclo, hd⟩ := encloses_of_delimits hd
  obtain ⟨opener, _, hopener, -, he⟩ := encloses_of_delimits he
  obtain ⟨r⟩ := Fragment.nonempty_stretch hlt hclo hopener
  have hle := r.stop_le_start
  have hs := hd.after.1
  have hst := he.before.1
  omega

/-- The bodies of a source are slices of it with balanced braces, each in braces that belong together and before the next, so
none is found within another. No source is refused; 32 bits hold every place if they can measure the source. -/
theorem definitions_enclosed (s : String) (hs : s.utf8ByteSize < 2 ^ 32) :
    (∀ d ∈ (ofSource s.toList).definitions, ∃ opener closer, Encloses s d opener closer ∧ closer.stop < 2 ^ 32) ∧
      (ofSource s.toList).definitions.Pairwise fun d e => d.span.stop < e.span.start := by
  obtain ⟨hall, hpairs⟩ := scan_definitions
  constructor
  · intro d hd
    obtain ⟨i, j, -, hdelimits⟩ := hall d hd
    obtain ⟨opener, closer, -, hcloser, hencloses⟩ := encloses_of_delimits hdelimits
    have hmem : closer ∈ tokenize s.toList := by
      have hsig := List.mem_of_getElem? hcloser
      rw [Fragment.tokens_ofText] at hsig
      exact List.mem_of_mem_filter hsig
    exact ⟨opener, closer, hencloses, Nat.lt_of_le_of_lt ((partitions_of_tokenize s).stop_le hmem) hs⟩
  · exact hpairs.imp span_lt_of_precedes

/-- A member initializer in braces, braces in literals and comments, and a body that nothing closes. -/
theorem definitions_enclosed_literals :
    let s : String := "struct A \x7b A() : b\x7b1\x7d \x7b c = '\x7d'; \x7d \x7d; int f(x) \x7b if (y) \x7b /* \x7b */ \x7d \x7d g() \x7b"
    s.utf8ByteSize < 2 ^ 32 ∧ (ofSource s.toList).definitions.map (fun d => (d.name, d.span)) =
        [("A".toList, ⟨23, 33⟩), ("f".toList, ⟨48, 68⟩)] ∧
      (∀ d ∈ (ofSource s.toList).definitions, ∃ opener closer, Encloses s d opener closer ∧ closer.stop < 2 ^ 32) ∧
      (ofSource s.toList).definitions.Pairwise fun d e => d.span.stop < e.span.start := by
  intro s
  have hs : s.utf8ByteSize < 2 ^ 32 := by decide
  exact ⟨hs, by decide +kernel, definitions_enclosed s hs⟩

end Outline

end Declass
