import Isolation.Proofs.Transcript.Lexemes
import Isolation.Proofs.Transcript.Readings

/-!
# Tokens and Stray Characters

The tokens of a text have offsets in bytes, and the characters between them are stray. Nothing is lost and
nothing is counted twice: the tokens stand one behind the other, each between two characters of the text, and a
character is outside all of them exactly if it is passed over when the text is cut by longest lexemes.

The reader of transcripts does not use the tokens. It cuts a text in other places: a key that starts with a digit
is one key and two tokens. Behind each form the text goes on with something that no token of the form can run
into, so the tokens of a transcript are those of its parts, and a part has stray characters only in a key.

## Main definitions

* `Clean`: A text without stray characters.

## Theorems

* `tokens_exact`: Tokens lose nothing, and agree with the reader.
-/

namespace Isolation.Transcript

open Text (Stops)

section Offsets

/-- The offset lies between two characters of the text, or at one of its ends. -/
def Boundary (text : List Char) (offset : Nat) : Prop :=
  (String.Pos.Raw.mk offset).IsValid (String.ofList text)

variable {before after text : List Char}

@[simp]
theorem byteLength_nil : byteLength [] = 0 := rfl

@[simp]
theorem byteLength_append (text rest : List Char) :
    byteLength (text ++ rest) = byteLength text + byteLength rest :=
  total_append ..

theorem byteLength_pos (hne : text ≠ []) : 0 < byteLength text := by
  rcases List.exists_cons_of_ne_nil hne with ⟨c, rest, rfl⟩
  exact Nat.add_pos_left c.utf8Size_pos _

theorem utf8ByteSize_ofList (text : List Char) : (String.ofList text).utf8ByteSize = byteLength text := by
  induction text with
  | nil => rfl
  | cons c rest ih =>
    rw [String.ofList_cons]
    simp [ih, byteLength]

theorem boundary_append (before after : List Char) : Boundary (before ++ after) (byteLength before) := by
  refine String.Pos.Raw.isValid_iff_exists_append.mpr
    ⟨String.ofList before, String.ofList after, String.ofList_append, ?_⟩
  rw [String.rawEndPos, utf8ByteSize_ofList]

end Offsets

section Spans

/-- The byte at the offset belongs to the token. -/
def Token.Covers (t : Token) (offset : Nat) : Prop :=
  t.start ≤ offset ∧ offset < t.stop

/-- The token is a lexeme that stands in the text where its offsets say. -/
def Token.Placed (text : List Char) (t : Token) : Prop :=
  ∃ before after, text = before ++ (t.text.toList ++ after) ∧ Lexeme t.kind t.text.toList ∧
    t.start = byteLength before ∧ t.stop = byteLength (before ++ t.text.toList)

/-- No token holds the character with the number. -/
def Outside (text : List Char) (i : Nat) : Prop :=
  ∀ t ∈ tokens text, ¬ t.Covers (byteLength (text.take i))

/-- One of the pieces is a stray character, with a number of characters before it. -/
def StrayAt (cut : List Piece) (i : Nat) : Prop :=
  ∃ front c back, cut = front ++ .stray c :: back ∧ (front.flatMap Piece.chars).length = i

/-- The character with the number is passed over when the text is cut by longest lexemes. -/
def Unrecognized (text : List Char) (i : Nat) : Prop :=
  ∃ cut, Cut text cut ∧ StrayAt cut i

variable {text rest before : List Char} {cut : List Piece} {t : Token}

theorem Token.Placed.bounds (hplaced : t.Placed text) :
    t.start < t.stop ∧ Boundary text t.start ∧ Boundary text t.stop := by
  rcases hplaced with ⟨before, after, rfl, hform, hstart, hstop⟩
  refine ⟨?_, hstart ▸ boundary_append .., ?_⟩
  · have hpos := byteLength_pos hform.ne_nil
    rw [hstart, hstop, byteLength_append]
    omega
  · rw [hstop, ← List.append_assoc]
    exact boundary_append ..

theorem start_le_of_mem_tokensFrom {start : Nat} (hmem : t ∈ tokensFrom start cut) : start ≤ t.start := by
  induction cut generalizing start with
  | nil => cases hmem
  | cons piece more ih =>
    cases piece with
    | token kind lexeme =>
      rcases List.mem_cons.mp hmem with rfl | hmem
      · exact Nat.le_refl _
      · exact (Nat.le_add_right ..).trans (ih hmem)
    | stray c => exact (Nat.le_add_right ..).trans (ih hmem)

theorem pairwise_tokensFrom (cut : List Piece) (start : Nat) :
    (tokensFrom start cut).Pairwise fun a b => a.stop ≤ b.start := by
  induction cut generalizing start with
  | nil => exact .nil
  | cons piece more ih =>
    cases piece with
    | token kind lexeme =>
      exact List.pairwise_cons.mpr ⟨fun t hmem => start_le_of_mem_tokensFrom hmem, ih _⟩
    | stray c => exact ih _

/-- Each token stands in its place, whatever comes before the text that is cut. -/
theorem Cut.placed (hcut : Cut rest cut) (before : List Char) :
    ∀ t ∈ tokensFrom (byteLength before) cut, t.Placed (before ++ rest) := by
  induction hcut generalizing before with
  | nil => simp [tokensFrom]
  | @token lexeme rest kind more hlongest _ ih =>
    have hmore := ih (before ++ lexeme)
    rw [byteLength_append, List.append_assoc] at hmore
    refine List.forall_mem_cons.mpr ⟨⟨before, rest, ?_, ?_, rfl, ?_⟩, hmore⟩
    · rw [String.toList_ofList]
    · rw [String.toList_ofList]
      exact hlongest.form
    · rw [String.toList_ofList, byteLength_append]
      rfl
  | @stray c rest more _ _ ih =>
    have hmore := ih (before ++ [c])
    rw [byteLength_append, List.append_assoc] at hmore
    exact hmore

end Spans

section Strays

variable {text rest : List Char} {cut : List Piece}

theorem strayAt_cons_iff (piece : Piece) (cut : List Piece) (i : Nat) : StrayAt (piece :: cut) i ↔
    (piece.isToken = false ∧ i = 0) ∨ piece.chars.length ≤ i ∧ StrayAt cut (i - piece.chars.length) := by
  constructor
  · rintro ⟨front, c, back, hsplit, hlength⟩
    cases front with
    | nil =>
      cases hsplit
      exact .inl ⟨rfl, hlength.symm⟩
    | cons first front =>
      cases hsplit
      rw [List.flatMap_cons, List.length_append] at hlength
      exact .inr ⟨by omega, front, c, back, rfl, by omega⟩
  · rintro (⟨hstray, rfl⟩ | ⟨hle, front, c, back, rfl, hlength⟩)
    · cases piece with
      | token kind lexeme => cases hstray
      | stray c => exact ⟨[], c, cut, rfl, rfl⟩
    · refine ⟨piece :: front, c, back, rfl, ?_⟩
      rw [List.flatMap_cons, List.length_append]
      omega

/-- A character has no token exactly if it is a piece of its own. -/
theorem Cut.outside_iff (hcut : Cut text cut) (start : Nat) {i : Nat} (hi : i < text.length) :
    (∀ t ∈ tokensFrom start cut, ¬ t.Covers (start + byteLength (text.take i))) ↔ StrayAt cut i := by
  induction hcut generalizing start i with
  | nil => cases hi
  | @token lexeme rest kind more hlongest _ ih =>
    rw [strayAt_cons_iff, tokensFrom, List.forall_mem_cons]
    simp only [Piece.isToken, Piece.chars, Bool.true_eq_false, false_and, false_or]
    rw [List.length_append] at hi
    by_cases hlt : i < lexeme.length
    · -- The character belongs to the token.
      refine iff_of_false (fun hc => hc.1 ⟨Nat.le_add_right .., ?_⟩) (fun hc => by omega)
      have hproper : byteLength (lexeme.take i) < byteLength lexeme := by
        have hpos : 0 < byteLength (lexeme.drop i) := byteLength_pos (by simp; omega)
        have hsum := byteLength_append (lexeme.take i) (lexeme.drop i)
        rw [List.take_append_drop] at hsum
        omega
      rw [List.take_append_of_le_length (Nat.le_of_lt hlt)]
      dsimp only
      omega
    · -- The character lies behind the token.
      have hle := Nat.le_of_not_lt hlt
      have htake : (lexeme ++ rest).take i = lexeme ++ rest.take (i - lexeme.length) := by
        rw [List.take_append, List.take_of_length_le hle]
      have hmore := ih (start + byteLength lexeme) (i := i - lexeme.length) (by omega)
      rw [htake, byteLength_append, ← Nat.add_assoc, and_iff_right ?_, and_iff_right hle]
      · exact hmore
      · rintro ⟨_, hstop⟩
        dsimp only at hstop
        omega
  | @stray c rest more _ _ ih =>
    rw [strayAt_cons_iff, tokensFrom]
    simp only [Piece.isToken, Piece.chars, true_and, List.length_singleton]
    cases i with
    | zero =>
      refine iff_of_true (fun t hmem hcovers => ?_) (.inl rfl)
      have hstart := start_le_of_mem_tokensFrom hmem
      have hpos : 0 < byteLength [c] := byteLength_pos (List.cons_ne_nil _ _)
      have hle := hcovers.1
      rw [List.take_zero, byteLength_nil] at hle
      omega
    | succ i =>
      have hmore := ih (start + byteLength [c]) (i := i) (Nat.lt_of_succ_lt_succ hi)
      have hsize : byteLength (c :: rest.take i) = byteLength [c] + byteLength (rest.take i) :=
        byteLength_append [c] _
      rw [List.take_succ_cons, hsize, ← Nat.add_assoc, hmore]
      simp

/-- Behind pieces that are all tokens, the first stray character comes no earlier than they end. -/
theorem StrayAt.length_le {front back : List Piece} {i : Nat} (hfront : ∀ piece ∈ front, piece.isToken = true)
    (hstray : StrayAt (front ++ back) i) : (front.flatMap Piece.chars).length ≤ i := by
  induction front generalizing i with
  | nil => exact Nat.zero_le _
  | cons piece front ih =>
    rw [List.forall_mem_cons] at hfront
    rw [List.flatMap_cons, List.length_append]
    rcases (strayAt_cons_iff ..).mp hstray with ⟨hc, _⟩ | ⟨hle, hmore⟩
    · rw [hfront.1] at hc
      cases hc
    · have := ih hfront.2 hmore
      omega

theorem outside_iff_unrecognized {i : Nat} (hi : i < text.length) :
    Outside text i ↔ Unrecognized text i := by
  have hcut := (cut_pieces text).outside_iff 0 hi
  rw [Nat.zero_add] at hcut
  refine hcut.trans ⟨fun hstray => ⟨_, cut_pieces text, hstray⟩, ?_⟩
  rintro ⟨cut, hother, hstray⟩
  rwa [cut_iff.mp hother] at hstray

theorem firstStray?_eq_some {before : List Char} {c : Char} (hfound : firstStray? text = some (before, c)) :
    ∃ front back, pieces text = front ++ .stray c :: back ∧ (∀ piece ∈ front, piece.isToken = true) ∧
      before = front.flatMap Piece.chars := by
  unfold firstStray? at hfound
  dsimp only at hfound
  split at hfound
  · rename_i d back hdrop
    cases hfound
    refine ⟨(pieces text).takeWhile Piece.isToken, back, ?_, fun piece hp => List.mem_takeWhile_imp hp, rfl⟩
    rw [← hdrop, List.takeWhile_append_dropWhile]
  · cases hfound

/-- The search fails exactly if all pieces are tokens. -/
theorem firstStray?_eq_none_iff : firstStray? text = none ↔ ∀ piece ∈ pieces text, piece.isToken = true := by
  rw [← List.dropWhile_eq_nil_iff, firstStray?]
  rcases hdrop : (pieces text).dropWhile Piece.isToken with _ | ⟨piece, back⟩
  · simp
  · -- What is left starts with a piece that is no token.
    have hpiece := List.head?_dropWhile_not Piece.isToken (pieces text)
    rw [hdrop] at hpiece
    cases piece with
    | token kind lexeme => cases hpiece
    | stray c => simp

theorem flatMap_text_tokensFrom (cut : List Piece) (start : Nat) :
    ((tokensFrom start cut).flatMap fun t => t.text.toList) =
      (cut.filter Piece.isToken).flatMap Piece.chars := by
  induction cut generalizing start with
  | nil => rfl
  | cons piece more ih =>
    cases piece with
    | token kind lexeme =>
      rw [List.filter_cons_of_pos rfl]
      simp [tokensFrom, ih, Piece.chars]
    | stray c =>
      rw [List.filter_cons_of_neg Bool.false_ne_true]
      exact ih _

/-- Where no character is stray, and only there, the tokens make up the text. -/
theorem firstStray?_eq_none_iff_flatMap :
    firstStray? text = none ↔ ((tokens text).flatMap fun t => t.text.toList) = text := by
  rw [firstStray?_eq_none_iff, tokens, flatMap_text_tokensFrom]
  have hwhole := (cut_pieces text).flatMap_chars
  constructor
  · intro hall
    rwa [List.filter_eq_self.mpr hall]
  · intro heq piece hmem
    by_contra hstray
    -- Without the piece, fewer characters would be left than the text has.
    rcases List.append_of_mem hmem with ⟨front, back, hsplit⟩
    have hfilter : (pieces text).filter Piece.isToken = (front ++ back).filter Piece.isToken := by
      rw [hsplit, List.filter_append, List.filter_cons_of_neg hstray, List.filter_append]
    have hle := ((List.filter_sublist (l := front ++ back) (p := Piece.isToken)).flatMap Piece.chars).length_le
    have hpos := List.length_pos_iff.mpr ((cut_pieces text).chars_ne_nil piece hmem)
    rw [← hfilter, heq, ← hwhole, hsplit] at hle
    simp only [List.flatMap_append, List.flatMap_cons, List.length_append] at hle
    omega

end Strays

section Clean

/-- All pieces of the text are tokens. -/
def Clean (text : List Char) : Prop :=
  ∀ piece ∈ pieces text, piece.isToken = true

/-- The characters of the key are ASCII characters. -/
def AsciiKey (key : String) : Prop :=
  ∀ c ∈ key.toList, c.toNat < 128

/-- All keys of the transaction are made of ASCII characters. -/
def AsciiBlock (block : Block) : Prop :=
  ∀ e ∈ block.events, AsciiKey e.key

variable {text rest : List Char}

theorem clean_nil : Clean [] := by
  simp [Clean, pieces]

section Runs

variable {front : List Char} {kind : TokenKind} {c : Char}

theorem Clean.append (hrest : Clean rest) (lexeme : List Char)
    (hfound : lexeme? (lexeme ++ rest) = some (kind, lexeme)) : Clean (lexeme ++ rest) := by
  rw [Clean, pieces_append hfound]
  exact List.forall_mem_cons.mpr ⟨rfl, hrest⟩

/-- A run is a token if the text behind it does not go on in the same way. -/
theorem Clean.run {p : Char → Bool} (hrest : Clean rest)
    (hfound : ∀ tail, lexeme? (c :: tail) = some (kind, c :: tail.takeWhile p))
    (hfront : ∀ d ∈ front, p d = true) (hstops : Stops p rest) : Clean (c :: front ++ rest) := by
  have hwhole : lexeme? (c :: front ++ rest) = some (kind, c :: front) := by
    rw [List.cons_append, hfound, Text.takeWhile_append_of_stops hfront hstops]
  exact hrest.append _ hwhole

theorem Clean.blanks (hrest : Clean rest) (hfront : Blanks front) (hstops : Stops isBlank rest) :
    Clean (front ++ rest) := by
  cases front with
  | nil => exact hrest
  | cons c front =>
    have hfront := List.forall_mem_cons.mp hfront
    exact hrest.run (lexeme?_whitespace hfront.1) hfront.2 hstops

theorem Clean.digits (hrest : Clean rest) (hfront : ∀ d ∈ front, d.isDigit = true)
    (hstops : Stops Char.isDigit rest) : Clean (front ++ rest) := by
  cases front with
  | nil => exact hrest
  | cons c front =>
    rw [List.forall_mem_cons] at hfront
    exact hrest.run (lexeme?_integer hfront.1) hfront.2 hstops

theorem isIdentChar_of_isDigit {c : Char} (hc : c.isDigit = true) : isIdentChar c = true := by
  simp [isIdentChar, Char.isAlphanum, hc]

theorem isDigit_of_isIdentChar {c : Char} (hc : isIdentChar c = true) (hstart : ¬ isIdentStart c = true) :
    c.isDigit = true := by
  simp only [isIdentStart, isIdentChar, Char.isAlphanum, Bool.or_eq_true, not_or] at hstart hc
  tauto

theorem stops_dropWhile_append {p q : Char → Bool} (hpq : ∀ c, q c = false → p c = false)
    (hstops : Stops q rest) : Stops p (front.dropWhile p ++ rest) := by
  intro c hc
  have hhead := List.head?_dropWhile_not p front
  rcases hdrop : front.dropWhile p with _ | ⟨d, more⟩
  · rw [hdrop, List.nil_append] at hc
    exact hpq c (hstops c hc)
  · rw [hdrop] at hhead hc
    cases hc
    exact hhead

/-- A word is cut behind the digits that it starts with, if there are any, and nowhere else. -/
theorem Clean.word (hrest : Clean rest) (hfront : ∀ c ∈ front, isIdentChar c = true)
    (hstops : Stops isIdentChar rest) : Clean (front ++ rest) := by
  have hletters : ∀ {more}, (∀ c ∈ more, isIdentChar c = true) → Stops Char.isDigit (more ++ rest) →
      Clean (more ++ rest) := by
    intro more hmore hdigit
    cases more with
    | nil => exact hrest
    | cons c more =>
      rw [List.forall_mem_cons] at hmore
      have hstart : isIdentStart c = true := by
        by_contra hc
        have hfalse := hdigit c rfl
        rw [isDigit_of_isIdentChar hmore.1 hc] at hfalse
        cases hfalse
      exact hrest.run (lexeme?_ident hstart) hmore.2 hstops
  have hbehind : Stops Char.isDigit (front.dropWhile Char.isDigit ++ rest) := by
    refine stops_dropWhile_append (fun c hc => ?_) hstops
    by_contra hdigit
    rw [isIdentChar_of_isDigit (by simpa using hdigit)] at hc
    cases hc
  have hmore := hletters (fun c hc => hfront c ((List.dropWhile_sublist _).subset hc)) hbehind
  rw [← List.takeWhile_append_dropWhile (p := Char.isDigit) (l := front), List.append_assoc]
  exact hmore.digits (fun d hd => List.mem_takeWhile_imp hd) hbehind

end Runs

section Forms

theorem isIdentChar_of_isKeyChar {c : Char} (hkey : Text.isKeyChar c = true) (hascii : c.toNat < 128) :
    isIdentChar c = true := by
  rwa [Text.isKeyChar, Text.isAlphanumeric, if_pos hascii] at hkey

theorem ValueText.isDigit {value : UInt64} (hvalue : ValueText text value) : ∀ d ∈ text, d.isDigit = true := by
  cases hvalue with
  | zero => exact List.forall_mem_singleton.mpr rfl
  | digits _ hdigits _ => exact hdigits

theorem AccessText.clean_append {key : String} {entry : Entry} (haccess : AccessText key text entry)
    (hrest : Clean rest) (hstops : Stops Char.isDigit rest) :
    Clean (text ++ rest) ∧ Stops isIdentChar (text ++ rest) := by
  cases haccess with
  | write hvalue =>
    exact ⟨(hrest.digits hvalue.isDigit hstops).append [':', '='] rfl, Text.stops_cons (by decide) _⟩
  | initial =>
    exact ⟨(hrest.append ['?'] rfl).append ['=', '='] rfl, Text.stops_cons (by decide) _⟩
  | read hvalue =>
    exact ⟨(hrest.digits hvalue.isDigit hstops).append ['=', '='] rfl, Text.stops_cons (by decide) _⟩

theorem EntryText.clean_append {entry : Entry} (hentry : EntryText text entry) (hascii : AsciiKey entry.key)
    (hrest : Clean rest) (hstops : Stops Char.isDigit rest) : Clean (text ++ rest) := by
  rcases hentry with @⟨key, access, _, ⟨_, hkey⟩, haccess⟩
  rw [haccess.key_eq, AsciiKey, String.toList_ofList] at hascii
  rcases haccess.clean_append hrest hstops with ⟨hclean, hbehind⟩
  rw [List.append_assoc]
  exact hclean.word (fun c hc => isIdentChar_of_isKeyChar (hkey c hc) (hascii c hc)) hbehind

/-- Items separated by blanks are clean if each of them is, before a text that it cannot run into. -/
theorem Separated.clean_append {α : Type} {item : List Char → α → Prop} {items : List α} {p : Char → Bool}
    (hspace : p ' ' = false) (htab : p '\t' = false)
    (hitem : ∀ {text a}, item text a → a ∈ items → (∃ c more, text = c :: more ∧ isBlank c = false) ∧
      ∀ {rest}, Clean rest → Stops p rest → Clean (text ++ rest))
    (hitems : Separated item text items) (hrest : Clean rest) (hstops : Stops p rest) :
    Clean (text ++ rest) := by
  rcases hitems with @⟨first, others, a, more, ha, hmore⟩
  have hfollowed : Clean (others ++ rest) := by
    have hlater : ∀ {text b}, item text b → b ∈ more → _ :=
      fun hb hmem => hitem hb (List.mem_cons_of_mem _ hmem)
    clear hitem
    induction hmore with
    | nil => exact hrest
    | @cons blanks text others b more _ hblanks hb hmore ih =>
      rcases hlater hb List.mem_cons_self with ⟨⟨c, front, rfl, hc⟩, hclean⟩
      have hbehind := ih fun hother hmem => hlater hother (List.mem_cons_of_mem _ hmem)
      rw [List.append_assoc, List.append_assoc]
      exact (hclean hbehind (hmore.stops hspace htab hstops)).blanks hblanks (Text.stops_cons hc _)
  rw [List.append_assoc]
  exact (hitem ha List.mem_cons_self).2 hfollowed (hmore.stops hspace htab hstops)

theorem BlockText.clean_append {block : Block} (hblock : BlockText text block) (hascii : AsciiBlock block)
    (hrest : Clean rest) : Clean (text ++ rest) := by
  rcases hblock with @⟨events, entries, committed, hentries⟩
  have hmark : Clean (commitMark committed ++ rest) := by
    cases committed with
    | true => exact hrest
    | false => exact hrest.append ['!'] rfl
  have hclosed := hmark.append [']'] rfl
  have hevents : Clean (events ++ (']' :: (commitMark committed ++ rest))) := by
    refine hentries.clean_append (p := Char.isDigit) (by decide) (by decide) ?_ hclosed
      (Text.stops_cons (by decide) _)
    intro text entry hentry hmem
    refine ⟨?_, fun hrest hstops => hentry.clean_append (hascii entry hmem) hrest hstops⟩
    rcases hentry.exists_cons with ⟨c, more, rfl, hc⟩
    exact ⟨c, more, rfl, isBlank_eq_false_of_isKeyChar hc⟩
  rw [List.cons_append, List.append_assoc]
  exact hevents.append ['['] rfl

/-- Behind a line stands a line break or nothing, and nothing in a line runs on there. -/
theorem stops_of_lineBreak {p : Char → Bool} (hreturn : p '\r' = false) (hfeed : p '\n' = false)
    (hstops : Stops (!isLineBreak ·) rest) : Stops p rest := by
  intro c hc
  have hbreak := hstops c hc
  simp only [isLineBreak, Bool.not_eq_eq_eq_not, Bool.not_false, Bool.or_eq_true, beq_iff_eq] at hbreak
  rcases hbreak with rfl | rfl
  · exact hreturn
  · exact hfeed

theorem Clean.comment (hrest : Clean rest) (hplain : NoBreak text) (hstops : Stops (!isLineBreak ·) rest) :
    Clean ('/' :: '/' :: text ++ rest) := by
  refine hrest.append _ (?_ : _ = some (TokenKind.comment, _))
  have hrun : ∀ d ∈ text, (!isLineBreak d) = true := by
    intro d hd
    rw [hplain d hd]
    rfl
  rw [List.cons_append, List.cons_append, lexeme?, Text.takeWhile_append_of_stops hrun hstops]

theorem LineText.clean_append {line : Line} (hline : LineText text line)
    (hascii : ∀ block ∈ line.transactions, AsciiBlock block) (hrest : Clean rest)
    (hstops : Stops (!isLineBreak ·) rest) : Clean (text ++ rest) := by
  have hblank : Stops isBlank rest := stops_of_lineBreak (by decide) (by decide) hstops
  cases hline with
  | blank hblanks => exact hrest.blanks hblanks hblank
  | @body before text after line hbefore hbody hafter =>
    rw [List.append_assoc, List.append_assoc]
    refine Clean.blanks ?_ hbefore (hbody.stops _)
    have hbehind := hrest.blanks hafter hblank
    cases hbody with
    | dashes more =>
      have hdash : ∀ c, isBlank c = true → (c == '-') = false :=
        kind_eq_false_of_isBlank (by decide) (by decide)
      refine hbehind.run lexeme?_dash (fun d hd => by simp [List.eq_of_mem_replicate hd]) ?_
      exact stops_append (fun c hc => hdash c (hafter c hc))
        (stops_of_lineBreak (by decide) (by decide) hstops)
    | @comment text hplain =>
      -- The comment goes on over the blanks behind it.
      rw [← List.append_assoc]
      exact hrest.comment (NoBreak.append hplain hafter.noBreak) hstops
    | blocks hlisted =>
      refine hlisted.clean_append (p := fun _ => false) rfl rfl ?_ hbehind (fun _ _ => rfl)
      intro text block hblock hmem
      refine ⟨?_, fun hrest _ => hblock.clean_append (hascii block hmem) hrest⟩
      rcases hblock with ⟨committed, hentries⟩
      exact ⟨_, _, rfl, by decide⟩

/-- A transcript is clean if its keys are made of ASCII characters. -/
theorem LinesText.clean {read : List Line} (hlines : LinesText text read)
    (hascii : ∀ line ∈ read, ∀ block ∈ line.transactions, AsciiBlock block) : Clean text := by
  induction hlines with
  | nil => exact clean_nil
  | @last text line hline =>
    rw [← List.append_nil text]
    exact hline.clean_append (hascii line List.mem_cons_self) clean_nil stops_nil
  | @feed text rest line more hline _ ih =>
    rw [List.forall_mem_cons] at hascii
    exact hline.clean_append hascii.1 ((ih hascii.2).append ['\n'] rfl) (Text.stops_cons (by decide) _)
  | @returnFeed text rest line more hline _ ih =>
    rw [List.forall_mem_cons] at hascii
    exact hline.clean_append hascii.1 ((ih hascii.2).append ['\r', '\n'] rfl)
      (Text.stops_cons (by decide) _)

theorem clean_of_parse {sessions : List (Recorded.Session String UInt64)}
    (hparse : parse text = .ok sessions)
    (hascii : ∀ session ∈ sessions, ∀ block ∈ session, AsciiBlock block) : Clean text := by
  rcases parse_eq_ok_iff.mp hparse with ⟨read, hread, rfl⟩
  refine (linesText_of_readLines hread).clean fun line hline block hblock => ?_
  -- Every transaction of a line is in one of the sessions.
  have hmem : block ∈ (sessionsOf read).flatten := by
    rw [flatten_sessionsOf]
    exact List.mem_flatMap.mpr ⟨line, hline, hblock⟩
  rcases List.mem_flatten.mp hmem with ⟨session, hsession, hblock⟩
  exact hascii session hsession block hblock

end Forms

end Clean

/-- Tokens stand one behind the other; none is empty, and each is a lexeme between two characters of the text, at
    its offsets. The characters outside all of them are those that are passed over when the text is cut by longest
    lexemes. None is stray exactly if the tokens make up the text, and what is found as a stray character is the
    first one outside all tokens. A transcript that is read has no stray character, unless a key holds one. -/
theorem tokens_exact (text : List Char) :
    ((tokens text).Pairwise (fun a b => a.stop ≤ b.start) ∧
      ∀ t ∈ tokens text, t.start < t.stop ∧ Boundary text t.start ∧ Boundary text t.stop ∧ t.Placed text) ∧
    (∀ i < text.length, Outside text i ↔ Unrecognized text i) ∧
    (firstStray? text = none ↔ ((tokens text).flatMap fun t => t.text.toList) = text) ∧
    (∀ before c, firstStray? text = some (before, c) →
      (∃ after, text = before ++ c :: after) ∧ Outside text before.length ∧
        ∀ i < before.length, ¬ Outside text i) ∧
    ∀ sessions, parse text = .ok sessions →
      (∀ session ∈ sessions, ∀ block ∈ session, AsciiBlock block) → firstStray? text = none := by
  refine ⟨⟨pairwise_tokensFrom _ _, fun t hmem => ?_⟩, fun i hi => outside_iff_unrecognized hi,
    firstStray?_eq_none_iff_flatMap, fun before c hfound => ?_, fun sessions hparse hascii => ?_⟩
  · have hplaced := (cut_pieces text).placed [] t hmem
    exact ⟨hplaced.bounds.1, hplaced.bounds.2.1, hplaced.bounds.2.2, hplaced⟩
  · rcases firstStray?_eq_some hfound with ⟨front, back, hpieces, hfront, rfl⟩
    have hcut := cut_pieces text
    have htext := hcut.flatMap_chars
    rw [hpieces, List.flatMap_append, List.flatMap_cons] at htext
    have hlength := congrArg List.length htext
    simp only [Piece.chars, List.length_append, List.length_singleton] at hlength
    refine ⟨⟨_, htext.symm⟩, ?_, fun i hi hout => ?_⟩
    · exact (outside_iff_unrecognized (by omega)).mpr ⟨_, hcut, front, c, back, hpieces, rfl⟩
    · -- An earlier stray character would be among the pieces that are tokens.
      rcases (outside_iff_unrecognized (by omega)).mp hout with ⟨cut, hother, hstray⟩
      rw [cut_iff.mp hother, hpieces] at hstray
      exact absurd (hstray.length_le hfront) (Nat.not_le_of_lt hi)
  · exact firstStray?_eq_none_iff.mpr (clean_of_parse hparse hascii)

/-- A key that is cut into two tokens and a comment in another script leave nothing stray. In a key, a letter of
    another script is stray. -/
theorem tokens_exact_twoScripts :
    (parse "[1x:=7]\n//λ".toList = .ok [[⟨[.write "1x" 7], true⟩]] ∧
      firstStray? "[1x:=7]\n//λ".toList = none) ∧
    firstStray? "[xλ:=7]".toList = some (['[', 'x'], 'λ') ∧ Outside "[xλ:=7]".toList 2 := by
  have hparse : parse "[1x:=7]\n//λ".toList = .ok [[⟨[.write "1x" 7], true⟩]] := by
    decide +kernel
  have hstray : firstStray? "[xλ:=7]".toList = some (['[', 'x'], 'λ') := by
    cbv
  refine ⟨⟨hparse, (tokens_exact _).2.2.2.2 _ hparse ?_⟩, hstray, ?_⟩
  · simp [AsciiBlock, AsciiKey, Recorded.Event.key]
  · exact ((tokens_exact _).2.2.2.1 _ _ hstray).2.1

end Isolation.Transcript
