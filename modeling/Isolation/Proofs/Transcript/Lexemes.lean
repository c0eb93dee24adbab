import Isolation.Proofs.Transcript.Grammar

/-!
# Cutting a Text by Longest Lexemes

A kind of token is a set of texts. Said without a scanner, a text is cut from left to right: where some lexeme
stands, the longest one is taken, and where none does, a single character is passed over. There is one way to
do this, and it is what the scanner of transcripts does.

Lexemes of different kinds never compete. The first character decides which kind it can be, so that the longest
lexeme is the longest of its kind, and the scanner need not compare kinds with each other.

## Main definitions

* `Longest`, `Cut`: The longest lexeme at the front of a text, and a text cut into such lexemes.

## Theorems

* `lexeme?_eq_some_iff`, `cut_iff`: The scanner takes the longest lexeme, and a text is cut in one way
  only.
-/

namespace Isolation.Transcript

/-- The texts of each kind of token. -/
inductive Lexeme : TokenKind → List Char → Prop where
  | comment {text : List Char} : NoBreak text → Lexeme .comment ('/' :: '/' :: text)
  | dash (more : Nat) : Lexeme .dash (List.replicate (more + 1) '-')
  | bracketOpen : Lexeme .bracketOpen ['[']
  | bracketClose : Lexeme .bracketClose [']']
  | assign : Lexeme .assign [':', '=']
  | equals : Lexeme .equals ['=', '=']
  | initial : Lexeme .initial ['?']
  | uncommitted : Lexeme .uncommitted ['!']
  | ident {c : Char} {more : List Char} :
      isIdentStart c = true → (∀ d ∈ more, isIdentChar d = true) → Lexeme .ident (c :: more)
  | integer {c : Char} {more : List Char} :
      c.isDigit = true → (∀ d ∈ more, d.isDigit = true) → Lexeme .integer (c :: more)
  | newline : Lexeme .newline ['\n']
  | returnNewline : Lexeme .newline ['\r', '\n']
  | whitespace {c : Char} {more : List Char} :
      isBlank c = true → Blanks more → Lexeme .whitespace (c :: more)

/-- A lexeme of the kind stands at the front of the text, and no lexeme there is longer or of another kind. -/
structure Longest (text : List Char) (kind : TokenKind) (lexeme : List Char) : Prop where
  form : Lexeme kind lexeme
  front : lexeme <+: text
  longest : ∀ other word, Lexeme other word → word <+: text →
    other = kind ∧ word.length ≤ lexeme.length

/-- No lexeme stands at the front of the text. -/
def NoLexeme (text : List Char) : Prop :=
  ∀ kind word, Lexeme kind word → ¬ word <+: text

/-- A text cut into longest lexemes, and into single characters where there is no lexeme. -/
inductive Cut : List Char → List Piece → Prop where
  | nil : Cut [] []
  | token {lexeme rest : List Char} {kind : TokenKind} {more : List Piece} :
      Longest (lexeme ++ rest) kind lexeme → Cut rest more →
      Cut (lexeme ++ rest) (.token kind lexeme :: more)
  | stray {c : Char} {rest : List Char} {more : List Piece} :
      NoLexeme (c :: rest) → Cut rest more → Cut (c :: rest) (.stray c :: more)

section Scanning

variable {text lexeme : List Char} {kind : TokenKind}

theorem Lexeme.ne_nil (hform : Lexeme kind lexeme) : lexeme ≠ [] := by
  cases hform <;> exact List.cons_ne_nil _ _

/-- The characters that start lexemes of their own, and no runs. -/
def marks : List Char :=
  ['/', '[', ']', ':', '=', '?', '!', '\n', '\r']

theorem lexeme?_of_notMem_marks {c : Char} (hc : c ∉ marks) (rest : List Char) :
    lexeme? (c :: rest) =
      if c == '-' then some (.dash, c :: rest.takeWhile (· == '-'))
      else if isIdentStart c then some (.ident, c :: rest.takeWhile isIdentChar)
      else if c.isDigit then some (.integer, c :: rest.takeWhile Char.isDigit)
      else if isBlank c then some (.whitespace, c :: rest.takeWhile isBlank)
      else none := by
  simp only [marks, List.mem_cons, List.not_mem_nil, or_false, not_or] at hc
  simp [lexeme?, hc]

theorem notMem_marks_of_kind {p : Char → Bool} (hp : marks.any p = false) {c : Char}
    (hc : p c = true) : c ∉ marks := by
  intro hmem
  exact absurd hc (List.any_eq_false.mp hp c hmem)

theorem not_isIdentStart_of_isDigit {c : Char} (hc : c.isDigit = true) : ¬ isIdentStart c = true := by
  simp only [isIdentStart, Char.isAlpha, Char.isUpper, Char.isLower, Char.isDigit, Bool.or_eq_true,
    Bool.and_eq_true, decide_eq_true_eq, beq_iff_eq, UInt32.le_iff_toNat_le, ge_iff_le, Char.reduceVal,
    UInt32.reduceToNat] at hc ⊢
  rintro ((hupper | hlower) | rfl)
  · omega
  · omega
  · exact absurd hc.2 (by decide)

theorem lexeme?_dash (rest : List Char) :
    lexeme? ('-' :: rest) = some (.dash, '-' :: rest.takeWhile (· == '-')) := by
  rw [lexeme?_of_notMem_marks (by decide), if_pos (by rfl)]

theorem lexeme?_ident {c : Char} (hc : isIdentStart c = true) (rest : List Char) :
    lexeme? (c :: rest) = some (.ident, c :: rest.takeWhile isIdentChar) := by
  have hdash : ¬ (c == '-') = true := by
    rw [beq_iff_eq]
    rintro rfl
    exact absurd hc (by decide)
  rw [lexeme?_of_notMem_marks (notMem_marks_of_kind (by decide) hc), if_neg hdash, if_pos hc]

theorem lexeme?_integer {c : Char} (hc : c.isDigit = true) (rest : List Char) :
    lexeme? (c :: rest) = some (.integer, c :: rest.takeWhile Char.isDigit) := by
  have hdash : ¬ (c == '-') = true := by
    rw [beq_iff_eq]
    rintro rfl
    exact absurd hc (by decide)
  rw [lexeme?_of_notMem_marks (notMem_marks_of_kind (by decide) hc), if_neg hdash,
    if_neg (not_isIdentStart_of_isDigit hc), if_pos hc]

theorem lexeme?_whitespace {c : Char} (hc : isBlank c = true) (rest : List Char) :
    lexeme? (c :: rest) = some (.whitespace, c :: rest.takeWhile isBlank) := by
  rcases (isBlank_eq_true_iff c).mp hc with rfl | rfl
  · rfl
  · rfl

theorem lexeme?_sound (hfound : lexeme? text = some (kind, lexeme)) :
    Lexeme kind lexeme ∧ lexeme <+: text := by
  have hrun (c : Char) (p : Char → Bool) (rest : List Char) : c :: rest.takeWhile p <+: c :: rest :=
    List.cons_prefix_cons.mpr ⟨rfl, List.takeWhile_prefix p⟩
  unfold lexeme? at hfound
  split at hfound
  case h_1 rest =>
      cases hfound
      refine ⟨.comment fun c hc => ?_, ?_⟩
      · simpa using List.mem_takeWhile_imp hc
      · exact List.cons_prefix_cons.mpr ⟨rfl, hrun _ _ _⟩
  case h_10 c rest _ _ _ _ _ _ _ _ _ =>
      -- What is left are runs, and the first character tells which one it is.
      split_ifs at hfound with hdash hident hdigit hblank
      · cases hfound
        rw [beq_iff_eq] at hdash
        subst hdash
        refine ⟨?_, hrun _ _ _⟩
        have hrun : rest.takeWhile (· == '-') = List.replicate (rest.takeWhile (· == '-')).length '-' :=
          List.eq_replicate_of_mem fun d hd => by simpa using List.mem_takeWhile_imp hd
        rw [hrun]
        exact .dash _
      · cases hfound
        exact ⟨.ident hident fun d hd => List.mem_takeWhile_imp hd, hrun _ _ _⟩
      · cases hfound
        exact ⟨.integer hdigit fun d hd => List.mem_takeWhile_imp hd, hrun _ _ _⟩
      · cases hfound
        exact ⟨.whitespace hblank fun d hd => List.mem_takeWhile_imp hd, hrun _ _ _⟩
  case h_11 => cases hfound
  all_goals
    cases hfound
    exact ⟨by constructor, by simp⟩

/-- Where a lexeme stands, one of its kind is found that is at least as long. -/
theorem lexeme?_complete (hform : Lexeme kind lexeme) (rest : List Char) :
    ∃ more, lexeme? (lexeme ++ rest) = some (kind, lexeme ++ more) := by
  cases hform with
  | @comment text hplain =>
    refine ⟨rest.takeWhile (!isLineBreak ·), ?_⟩
    have hrun : ∀ d ∈ text, (!isLineBreak d) = true := by
      intro d hd
      rw [hplain d hd]
      rfl
    rw [List.cons_append, List.cons_append, lexeme?, List.takeWhile_append_of_pos hrun]
    rfl
  | dash more =>
    refine ⟨rest.takeWhile (· == '-'), ?_⟩
    have hrun : ∀ d ∈ List.replicate more '-', (d == '-') = true := by
      intro d hd
      rw [List.eq_of_mem_replicate hd]
      rfl
    rw [List.replicate_succ, List.cons_append, lexeme?_dash, List.takeWhile_append_of_pos hrun]
    rfl
  | ident hstart hmore =>
    refine ⟨rest.takeWhile isIdentChar, ?_⟩
    rw [List.cons_append, lexeme?_ident hstart, List.takeWhile_append_of_pos hmore]
    rfl
  | integer hdigit hmore =>
    refine ⟨rest.takeWhile Char.isDigit, ?_⟩
    rw [List.cons_append, lexeme?_integer hdigit, List.takeWhile_append_of_pos hmore]
    rfl
  | whitespace hblank hmore =>
    refine ⟨rest.takeWhile isBlank, ?_⟩
    rw [List.cons_append, lexeme?_whitespace hblank, List.takeWhile_append_of_pos hmore]
    rfl
  | _ => exact ⟨[], rfl⟩

theorem lexeme?_eq_some_iff : lexeme? text = some (kind, lexeme) ↔ Longest text kind lexeme := by
  constructor
  · intro hfound
    rcases lexeme?_sound hfound with ⟨hform, hfront⟩
    refine ⟨hform, hfront, ?_⟩
    rintro other word hother ⟨rest, rfl⟩
    -- The search would have found the other lexeme, or one that is longer.
    rcases lexeme?_complete hother rest with ⟨more, hmore⟩
    rw [hmore] at hfound
    cases hfound
    exact ⟨rfl, by simp⟩
  · rintro ⟨hform, ⟨rest, rfl⟩, hlongest⟩
    rcases lexeme?_complete hform rest with ⟨more, hmore⟩
    rcases lexeme?_sound hmore with ⟨hform', hfront'⟩
    have hlength := (hlongest _ _ hform' hfront').2
    rw [List.length_append] at hlength
    have hnil : more = [] := List.eq_nil_of_length_eq_zero (by omega)
    rw [hmore, hnil, List.append_nil]

theorem lexeme?_eq_none_iff : lexeme? text = none ↔ NoLexeme text := by
  constructor
  · rintro hnone kind word hform ⟨rest, rfl⟩
    rcases lexeme?_complete hform rest with ⟨more, hmore⟩
    rw [hmore] at hnone
    cases hnone
  · intro hnone
    rcases hfound : lexeme? text with _ | ⟨kind, word⟩
    · rfl
    · rcases lexeme?_sound hfound with ⟨hform, hfront⟩
      exact absurd hfront (hnone kind word hform)

end Scanning

section Cutting

variable {text rest : List Char} {cut : List Piece}

/-- A lexeme that is found is the first piece, and the rest of the text is cut in the same way. -/
theorem pieces_append {lexeme : List Char} {kind : TokenKind}
    (hfound : lexeme? (lexeme ++ rest) = some (kind, lexeme)) :
    pieces (lexeme ++ rest) = .token kind lexeme :: pieces rest := by
  rcases List.exists_cons_of_ne_nil (lexeme?_sound hfound).1.ne_nil with ⟨c, more, rfl⟩
  rw [List.cons_append] at hfound ⊢
  rw [pieces.eq_def]
  simp only [hfound, List.length_cons, Nat.add_sub_cancel, List.drop_left]

theorem pieces_cons_of_none {c : Char} (hnone : lexeme? (c :: rest) = none) :
    pieces (c :: rest) = .stray c :: pieces rest := by
  rw [pieces.eq_def]
  simp only [hnone]

theorem cut_pieces (text : List Char) : Cut text (pieces text) := by
  induction hlength : text.length using Nat.strong_induction_on generalizing text with
  | h n ih =>
    cases text with
    | nil =>
      rw [pieces]
      exact .nil
    | cons c rest =>
      rcases hfound : lexeme? (c :: rest) with _ | ⟨kind, lexeme⟩
      · rw [pieces_cons_of_none hfound]
        exact .stray (lexeme?_eq_none_iff.mp hfound) (ih rest.length (by simp [← hlength]) rest rfl)
      · rcases lexeme?_sound hfound with ⟨hform, behind, hbehind⟩
        rw [← hbehind] at hfound hlength ⊢
        have hpos := List.length_pos_iff.mpr hform.ne_nil
        rw [List.length_append] at hlength
        rw [pieces_append hfound]
        exact .token (lexeme?_eq_some_iff.mp hfound) (ih behind.length (by omega) behind rfl)

/-- A text is cut in one way only. -/
theorem cut_iff : Cut text cut ↔ cut = pieces text := by
  constructor
  · intro hcut
    induction hcut with
    | nil => rw [pieces]
    | token hlongest _ ih => rw [pieces_append (lexeme?_eq_some_iff.mpr hlongest), ih]
    | stray hnone _ ih => rw [pieces_cons_of_none (lexeme?_eq_none_iff.mpr hnone), ih]
  · rintro rfl
    exact cut_pieces text

/-- Nothing of the text is lost. -/
theorem Cut.flatMap_chars (hcut : Cut text cut) : cut.flatMap Piece.chars = text := by
  induction hcut with
  | nil => rfl
  | token _ _ ih => rw [List.flatMap_cons, ih, Piece.chars]
  | stray _ _ ih =>
    rw [List.flatMap_cons, ih, Piece.chars]
    rfl

theorem Cut.chars_ne_nil (hcut : Cut text cut) : ∀ piece ∈ cut, piece.chars ≠ [] := by
  induction hcut with
  | nil => simp
  | token hlongest _ ih => exact List.forall_mem_cons.mpr ⟨hlongest.form.ne_nil, ih⟩
  | stray _ _ ih => exact List.forall_mem_cons.mpr ⟨List.cons_ne_nil _ _, ih⟩

end Cutting

end Isolation.Transcript
