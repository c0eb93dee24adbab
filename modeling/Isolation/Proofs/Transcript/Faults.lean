import Isolation.Proofs.Transcript.Tokens

/-!
# The Places of Faults

A text that is refused has a place where it goes wrong. It is not enough that the place lies in the text: what
stands before it should not be to blame. So the text before the place of a fault can always be completed to a
text that is accepted. What the fault points at is the first thing that might have to be changed.

That the part before it can be completed is kept by all the ways in which readers are composed, so that nothing
about them has to be looked up here. A line that was read stands before the lines behind it, and is part of their
completion.

If the first stray character of the text comes no later than the fault, the fault moves there. A shorter front
part has the same completions, so nothing has to be known about tokens, except that a stray character stands in
the text where it was found.

## Theorems

* `parse_error_viable`: The text before an error can be completed to one that is accepted.
-/

namespace Isolation.Transcript

open Text (map_eq_error_iff)
open Reader

section Places

variable {text more : List Char}

theorem splitLines_ne_nil (text : List Char) : splitLines text ≠ [] := by
  fun_induction splitLines text with
  | _ => exact List.cons_ne_nil _ _

theorem splitLines_of_notMem (hfeed : '\n' ∉ text) : splitLines text = [text] := by
  induction text with
  | nil => rfl
  | cons c text ih =>
    rw [List.mem_cons, not_or] at hfeed
    rw [splitLines, if_neg (Ne.symm hfeed.1), ih hfeed.2]

theorem splitLines_append_cons_feed (text rest : List Char) :
    splitLines (text ++ '\n' :: rest) = splitLines text ++ splitLines rest := by
  induction text with
  | nil => rfl
  | cons c text ih =>
    rw [List.cons_append, splitLines, splitLines, ih]
    split_ifs
    · rfl
    · rcases List.exists_cons_of_ne_nil (splitLines_ne_nil text) with ⟨first, others, htext⟩
      rw [htext]
      rfl

theorem feed_cases (text : List Char) :
    '\n' ∉ text ∨ ∃ front last, text = front ++ '\n' :: last ∧ '\n' ∉ last := by
  by_cases hmem : '\n' ∈ text
  · right
    rcases List.eq_append_cons_of_mem (List.mem_reverse.mpr hmem) with ⟨last, front, hsplit, hlast⟩
    refine ⟨front.reverse, last.reverse, ?_, fun hc => hlast (List.mem_reverse.mp hc)⟩
    rw [← List.reverse_reverse text, hsplit]
    simp
  · exact .inl hmem

/-- The line behind a text is the number of its line feeds, counted from one. -/
theorem line_after (text : List Char) : (Position.after text).line = text.count '\n' + 1 := by
  simp only [Position.after]
  induction text with
  | nil => rfl
  | cons c text ih =>
    rcases List.exists_cons_of_ne_nil (splitLines_ne_nil text) with ⟨first, others, htext⟩
    rw [htext] at ih
    by_cases hfeed : c = '\n'
    · rw [hfeed, splitLines, if_pos rfl, List.count_cons_self, htext, List.length_cons, ih]
    · rw [splitLines, if_neg hfeed, List.count_cons_of_ne hfeed, htext]
      exact ih

theorem column_after_feed (front rest : List Char) :
    (Position.after (front ++ '\n' :: rest)).column = (Position.after rest).column := by
  rcases List.exists_cons_of_ne_nil (splitLines_ne_nil rest) with ⟨first, others, hrest⟩
  simp only [Position.after, splitLines_append_cons_feed, hrest, List.getLast?_append_cons]

theorem column_after (hfeed : '\n' ∉ text) : (Position.after text).column = text.length + 1 := by
  simp [Position.after, splitLines_of_notMem hfeed]

theorem column_after_append (text : List Char) (hmore : '\n' ∉ more) :
    (Position.after (text ++ more)).column = (Position.after text).column + more.length := by
  rcases feed_cases text with hfeed | ⟨front, last, rfl, hlast⟩
  · have hboth : '\n' ∉ text ++ more := by simp [hfeed, hmore]
    rw [column_after hboth, column_after hfeed, List.length_append]
    omega
  · have hboth : '\n' ∉ last ++ more := by simp [hlast, hmore]
    rw [List.append_assoc, List.cons_append, column_after_feed, column_after_feed, column_after hboth,
      column_after hlast, List.length_append]
    omega

theorem after_append_ne (text : List Char) (hmore : more ≠ []) :
    Position.after (text ++ more) ≠ Position.after text := by
  intro hsame
  by_cases hfeed : '\n' ∈ more
  · have hline := congrArg Position.line hsame
    have hpos := List.count_pos_iff.mpr hfeed
    rw [line_after, line_after, List.count_append] at hline
    omega
  · have hcolumn := congrArg Position.column hsame
    have hlength := List.length_pos_iff.mpr hmore
    rw [column_after_append text hfeed] at hcolumn
    omega

/-- A place belongs to one front part of a text only. -/
theorem eq_of_after_eq {p q : Nat} (hp : p ≤ text.length) (hq : q ≤ text.length)
    (hsame : Position.after (text.take p) = Position.after (text.take q)) : p = q := by
  have hlater : ∀ {a b : Nat}, a < b → b ≤ text.length →
      Position.after (text.take a) ≠ Position.after (text.take b) := by
    intro a b hab hb heq
    have htake : text.take b = text.take a ++ (text.drop a).take (b - a) := by
      rw [← List.take_add, Nat.add_sub_cancel' (Nat.le_of_lt hab)]
    have hne : (text.drop a).take (b - a) ≠ [] := by
      rw [← List.length_pos_iff, List.length_take, List.length_drop]
      omega
    exact after_append_ne (text.take a) hne (htake ▸ heq.symm)
  rcases Nat.lt_trichotomy p q with hlt | heq | hgt
  · exact absurd hsame (hlater hlt hq)
  · exact heq
  · exact absurd hsame.symm (hlater hgt hp)

end Places

section Faults

variable {text : List Char} {fault : Fault}

theorem fits_lineEnd : lineEnd.Fits fun text _ => LineTail text [] := by
  refine ((fits_sign _).mono .inl).orElse
    (((fits_sign _).mono fun hreturn => .inr (.inl hreturn)).orElse fun text => ?_)
  simp only [endOfText]
  split
  · exact ⟨[], rfl, .inr (.inr ⟨rfl, rfl⟩)⟩
  · exact ⟨[], rfl, ['\n'], (), .inl rfl⟩

theorem fits_readLine : readLine.Fits fun text line => LinesText text [line] := by
  refine fits_readContent.bind fun hline => fits_lineEnd.bind fun htail => fits_pure ?_
  rw [List.append_nil]
  rcases htail with rfl | rfl | ⟨rfl, _⟩
  · exact .feed hline .nil
  · exact .returnFeed hline .nil
  · rw [List.append_nil]
    exact .last hline

/-- What stands before a fault can be completed to lines. -/
theorem readLines_fault (hread : readLines text = .error fault) :
    ∃ before, text = before ++ fault.rest ∧ Completable LinesText before := by
  fun_induction readLines text with
  | case1 => cases hread
  | case2 text hne line rest hline ih =>
    -- The fault lies in a later line, so this one stays in front of what completes the others.
    have hlater := map_eq_error_iff.mp hread
    rcases readLine_cases hline with ⟨rfl, _⟩ | ⟨front, rfl, hstep⟩
    · cases readLines_nil.symm.trans hlater
    · rcases ih hlater with ⟨before, rfl, more, read, hform⟩
      refine ⟨front ++ before, (List.append_assoc ..).symm, more, line :: read, ?_⟩
      rw [List.append_assoc]
      exact hstep hform
  | case3 text hne other hline =>
    cases hread
    have hfits := fits_readLine text
    rw [hline] at hfits
    rcases hfits with ⟨before, htext, more, line, hform⟩
    exact ⟨before, htext, more, [line], hform⟩
  | case4 text hne other hline =>
    cases hread
    have hfits := fits_readLine text
    rw [hline] at hfits
    rcases hfits with ⟨before, htext, more, line, hform⟩
    exact ⟨before, htext, more, [line], hform⟩

end Faults

section Texts

variable {text : List Char} {error : ParseError}

/-- A text that can be completed to lines can be completed to a text that is accepted. -/
theorem exists_parse_of_completable {before : List Char} (hform : Completable LinesText before) :
    ∃ more sessions, parse (before ++ more) = .ok sessions := by
  rcases hform with ⟨more, read, hlines⟩
  exact ⟨more, _, parse_eq_ok_iff_reading.mpr ⟨read, hlines, rfl⟩⟩

theorem prefix_of_firstStray? {before : List Char} {c : Char} (hfound : firstStray? text = some (before, c)) :
    before <+: text := by
  rcases firstStray?_eq_some hfound with ⟨front, back, hpieces, _, rfl⟩
  have htext := (cut_pieces text).flatMap_chars
  rw [hpieces, List.flatMap_append] at htext
  exact ⟨_, htext⟩

/-- The error of a text stands behind a front part that can be completed. It is the one that the reader of lines
    has found, or it has moved to the first stray character. -/
theorem exists_front_of_parse_error (hread : parse text = .error error) :
    ∃ before, before <+: text ∧ Position.after before = error.position ∧ Completable LinesText before ∧
      ((∃ fault, readLines text = .error fault ∧ text = before ++ fault.rest ∧
          error.cause = .refused fault.remarks) ∨
        ∃ c, firstStray? text = some (before, c) ∧ error.cause = .stray c) := by
  unfold parse at hread
  split at hread
  · cases hread
  · rename_i fault hfault
    cases hread
    rcases readLines_fault hfault with ⟨before, htext, hform⟩
    have hbefore : before <+: text := ⟨fault.rest, htext.symm⟩
    have htake : text.take (text.length - fault.rest.length) = before := by
      rw [htext, List.length_append, Nat.add_sub_cancel_right, List.take_left]
    unfold Fault.explain
    rw [htake]
    split
    · exact ⟨before, hbefore, rfl, hform, .inl ⟨fault, hfault, htext, rfl⟩⟩
    · rename_i clean c hstray
      dsimp only
      split_ifs with hmoved
      · -- A part of what can be completed can be completed.
        have hclean := prefix_of_firstStray? hstray
        have hshorter := List.prefix_of_prefix_length_le hclean hbefore hmoved
        exact ⟨clean, hclean, rfl, hform.of_prefix hshorter, .inr ⟨c, hstray, rfl⟩⟩
      · exact ⟨before, hbefore, rfl, hform, .inl ⟨fault, hfault, htext, rfl⟩⟩

/-- The place of an error belongs to one front part of the text, which ends between two characters, and this part
    can be completed to a text that is accepted. The error is the one that the reader of lines has found, or it has
    moved to the first stray character. -/
theorem parse_error_viable (text : List Char) (error : ParseError) (hread : parse text = .error error) :
    ∃ p ≤ text.length, Position.after (text.take p) = error.position ∧
      (∀ q ≤ text.length, Position.after (text.take q) = error.position → q = p) ∧
      Boundary text (byteLength (text.take p)) ∧
      (∃ more sessions, parse (text.take p ++ more) = .ok sessions) ∧
      ((∃ fault, readLines text = .error fault ∧ text = text.take p ++ fault.rest ∧
          error.cause = .refused fault.remarks) ∨
        ∃ c, firstStray? text = some (text.take p, c) ∧ error.cause = .stray c) := by
  rcases exists_front_of_parse_error hread with ⟨before, hfront, hplace, hform, horigin⟩
  have htake : text.take before.length = before := List.prefix_iff_eq_take.mp hfront |>.symm
  refine ⟨before.length, hfront.length_le, ?_, fun q hq hsame => ?_, ?_, ?_, ?_⟩
  · rw [htake, hplace]
  · refine eq_of_after_eq hq hfront.length_le ?_
    rw [hsame, htake, hplace]
  · rcases hfront with ⟨after, rfl⟩
    rw [htake]
    exact boundary_append before after
  · rw [htake]
    exact exists_parse_of_completable hform
  · rwa [htake]

/-- What is said where the value of a read is missing. -/
def missingValue : Cause :=
  .refused [.expected "a value", .expected "`:=`", .expected "`==`", .part "transaction"]

/-- In the second line of a text, a value is missing. In another text, there is a bracket too many, but the key holds
    a letter that is no ASCII letter, and the error moves there. -/
theorem parse_error_viable_movedPlace :
    (parse "[k:=1]\n[k==".toList = .error ⟨⟨2, 5⟩, missingValue⟩ ∧
      ∃ p ≤ "[k:=1]\n[k==".toList.length, Position.after ("[k:=1]\n[k==".toList.take p) = ⟨2, 5⟩ ∧
        ∃ more sessions, parse ("[k:=1]\n[k==".toList.take p ++ more) = .ok sessions) ∧
    parse "[ª:=1]]".toList = .error ⟨⟨1, 2⟩, .stray 'ª'⟩ ∧
      ∃ p ≤ "[ª:=1]]".toList.length, Position.after ("[ª:=1]]".toList.take p) = ⟨1, 2⟩ ∧
        ∃ more sessions, parse ("[ª:=1]]".toList.take p ++ more) = .ok sessions := by
  have hvalue : parse "[k:=1]\n[k==".toList = .error ⟨⟨2, 5⟩, missingValue⟩ := by
    decide +kernel
  have hletter : parse "[ª:=1]]".toList = .error ⟨⟨1, 2⟩, .stray 'ª'⟩ := by
    decide +kernel
  rcases parse_error_viable _ _ hvalue with ⟨p, hp, hplace, _, _, hviable, _⟩
  rcases parse_error_viable _ _ hletter with ⟨q, hq, hmoved, _, _, hshorter, _⟩
  exact ⟨⟨hvalue, p, hp, hplace, hviable⟩, hletter, q, hq, hmoved, hshorter⟩

end Texts

end Isolation.Transcript
