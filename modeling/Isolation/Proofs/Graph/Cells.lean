import Isolation.Graph.Cells
import Mathlib.Data.List.Sort
import Mathlib.Data.Nat.Bitwise

/-!
# Which Cells Are Set

Words and tables are described by which of their cells are set. Each operation gets one statement of that
kind, and the words do not appear again after that.

The listing of a row rests on one fact about words. If the lowest cell of a word is cell number *t*, then
subtracting one clears that cell, sets all cells below it and leaves the others alone, so the conjunction
with the word itself clears cell *t* and nothing more.

## Theorems

* `Cells.count_eq`: The count of a table adds up the lengths of the listings of its rows.
-/

namespace Isolation

/-- The bits of a number below a bound that it does not reach are counted by `bitCount`. -/
theorem countP_testBit {k n : Nat} (hn : n < 2 ^ k) : (List.range k).countP n.testBit = bitCount n := by
  induction k generalizing n with
  | zero =>
    have hzero : n = 0 := by simpa using hn
    rw [hzero, bitCount, if_pos rfl, List.range_zero, List.countP_nil]
  | succ k ih =>
    have hhalf : n / 2 < 2 ^ k := by omega
    have hshift : n.testBit ∘ Nat.succ = (n / 2).testBit := funext fun i => Nat.testBit_succ n i
    have hcount : bitCount n = n % 2 + bitCount (n / 2) := by
      by_cases hzero : n = 0
      · rw [hzero, bitCount, if_pos rfl]
      · rw [bitCount, if_neg hzero]
    rw [List.range_succ_eq_map, List.countP_cons, List.countP_map, hshift, ih hhalf, hcount,
      Nat.testBit_zero, Nat.add_comm]
    rcases Nat.mod_two_eq_zero_or_one n with hmod | hmod <;> simp [hmod]

/-- Subtracting one from a number clears its lowest bit and sets those below it. -/
theorem testBit_and_sub_one {n t : Nat} (hset : n.testBit t = true)
    (hmin : ∀ k < t, n.testBit k = false) (k : Nat) :
    (n &&& (n - 1)).testBit k = (n.testBit k && decide (k ≠ t)) := by
  have hmod : n % 2 ^ (t + 1) = 2 ^ t := by
    refine Nat.eq_of_testBit_eq fun i => ?_
    rw [Nat.testBit_mod_two_pow, Nat.testBit_two_pow]
    rcases Nat.lt_trichotomy i t with hlt | rfl | hgt
    · simp [hmin i hlt, hlt.ne']
    · simp [hset]
    · simp [show ¬ i < t + 1 by omega, show t ≠ i by omega]
  have hpos : 1 ≤ 2 ^ t := Nat.one_le_two_pow
  have hlow : 2 ^ t < 2 ^ (t + 1) := Nat.pow_lt_pow_right (by decide) (Nat.lt_succ_self t)
  have hsplit : n = 2 ^ (t + 1) * (n / 2 ^ (t + 1)) + 2 ^ t := by
    rw [← hmod, Nat.div_add_mod]
  have hpred : n - 1 = 2 ^ (t + 1) * (n / 2 ^ (t + 1)) + (2 ^ t - 1) := by omega
  have hpredBit : (n - 1).testBit k = if k < t + 1 then decide (k < t) else n.testBit k := by
    rw [hpred, Nat.testBit_two_pow_mul_add _ (by omega), Nat.testBit_two_pow_sub_one]
    split
    · rfl
    · rename_i hge
      rw [Nat.testBit_div_two_pow, show k - (t + 1) + (t + 1) = k by omega]
  rw [Nat.testBit_and, hpredBit]
  rcases Nat.lt_trichotomy k t with hlt | rfl | hgt
  · simp [hmin k hlt]
  · simp
  · simp [show ¬ k < t + 1 by omega, show k ≠ t by omega]

namespace Word

theorem toNat_single {k : Nat} (hk : k < 64) : (single k).toNat = 2 ^ k := by
  have hlt : 2 ^ k < 2 ^ 64 := Nat.pow_lt_pow_right (by decide) hk
  rw [single, UInt64.toNat_shiftLeft, UInt64.toNat_ofNat', UInt64.toNat_one, Nat.one_shiftLeft,
    Nat.mod_eq_of_lt (by omega : k < 2 ^ 64), Nat.mod_eq_of_lt hk, Nat.mod_eq_of_lt hlt]

theorem test_eq_testBit (word : UInt64) {k : Nat} (hk : k < 64) :
    test word k = word.toNat.testBit k := by
  have hzero : word &&& single k = 0 ↔ word.toNat &&& 2 ^ k = 0 := by
    rw [← UInt64.toNat_inj, UInt64.toNat_and, toNat_single hk, UInt64.toNat_zero]
  rw [test, Bool.eq_iff_iff, bne_iff_ne, ne_eq, hzero, Nat.and_two_pow]
  cases word.toNat.testBit k <;> simp

theorem testBit_eq_false (word : UInt64) {k : Nat} (hk : 64 ≤ k) : word.toNat.testBit k = false :=
  Nat.testBit_lt_two_pow (Nat.lt_of_lt_of_le word.toNat_lt (Nat.pow_le_pow_right (by decide) hk))

theorem test_or_single (word : UInt64) {c k : Nat} (hc : c < 64) (hk : k < 64) :
    test (word ||| single c) k = (test word k || decide (c = k)) := by
  rw [test_eq_testBit _ hk, test_eq_testBit _ hk, UInt64.toNat_or, toNat_single hc, Nat.testBit_or,
    Nat.testBit_two_pow]

theorem test_or (a b : UInt64) {k : Nat} (hk : k < 64) :
    test (a ||| b) k = (test a k || test b k) := by
  rw [test_eq_testBit _ hk, test_eq_testBit _ hk, test_eq_testBit _ hk, UInt64.toNat_or,
    Nat.testBit_or]

theorem test_zero {k : Nat} (hk : k < 64) : test 0 k = false := by
  rw [test_eq_testBit _ hk, UInt64.toNat_zero, Nat.zero_testBit]

theorem ext_test {a b : UInt64} (h : ∀ k < 64, test a k = test b k) : a = b := by
  refine UInt64.toNat_inj.1 (Nat.eq_of_testBit_eq fun k => ?_)
  by_cases hk : k < 64
  · rw [← test_eq_testBit a hk, ← test_eq_testBit b hk, h k hk]
  · rw [testBit_eq_false a (Nat.le_of_not_lt hk), testBit_eq_false b (Nat.le_of_not_lt hk)]

/-- The lowest cell of a word other than zero is set, and none below it is. -/
theorem lowest_spec {word : UInt64} (hword : word ≠ 0) :
    lowest word < 64 ∧ word.toNat.testBit (lowest word) = true ∧
      ∀ k < lowest word, word.toNat.testBit k = false := by
  cases hfind : (List.range 64).find? (test word) with
  | none =>
    refine absurd (ext_test fun k hk => ?_) hword
    rw [test_zero hk]
    simpa using List.find?_eq_none.1 hfind k (List.mem_range.2 hk)
  | some t =>
    have hlowest : lowest word = t := by rw [lowest, hfind, Option.getD_some]
    rw [hlowest]
    rcases List.find?_range_eq_some.1 hfind with ⟨hset, ht, hmin⟩
    rw [List.mem_range] at ht
    refine ⟨ht, ?_, fun k hk => ?_⟩
    · rw [← test_eq_testBit word ht]
      exact hset
    · rw [← test_eq_testBit word (hk.trans ht)]
      simpa using hmin k hk

theorem testBit_dropLowest {word : UInt64} (hword : word ≠ 0) (k : Nat) :
    (dropLowest word).toNat.testBit k = (word.toNat.testBit k && decide (k ≠ lowest word)) := by
  rcases lowest_spec hword with ⟨-, hset, hmin⟩
  rw [dropLowest, UInt64.toNat_and, toNat_sub_one hword, testBit_and_sub_one hset hmin]

theorem mem_ones_iff (word : UInt64) (k : Nat) : k ∈ ones word ↔ word.toNat.testBit k = true := by
  fun_induction ones word with
  | case1 => simp
  | case2 word hword ih =>
    rw [List.mem_cons, ih, testBit_dropLowest hword, Bool.and_eq_true, decide_eq_true_eq]
    by_cases hk : k = lowest word
    · simp [hk, (lowest_spec hword).2.1]
    · simp [hk]

theorem pairwise_ones (word : UInt64) : (ones word).Pairwise (· < ·) := by
  fun_induction ones word with
  | case1 => exact .nil
  | case2 word hword ih =>
    refine List.pairwise_cons.2 ⟨fun k hk => ?_, ih⟩
    rw [mem_ones_iff, testBit_dropLowest hword, Bool.and_eq_true, decide_eq_true_eq] at hk
    rcases Nat.lt_trichotomy k (lowest word) with hlt | heq | hgt
    · rw [(lowest_spec hword).2.2 k hlt] at hk
      exact absurd hk.1 Bool.false_ne_true
    · exact absurd heq hk.2
    · exact hgt

theorem lt_of_mem_ones {word : UInt64} {k : Nat} (hk : k ∈ ones word) : k < 64 := by
  by_contra hge
  rw [mem_ones_iff, testBit_eq_false word (Nat.le_of_not_lt hge)] at hk
  exact Bool.false_ne_true hk

theorem length_ones (word : UInt64) : (ones word).length = bitCount word.toNat := by
  have hfilter : ones word = (List.range 64).filter word.toNat.testBit := by
    refine List.Perm.eq_of_pairwise (fun a b _ _ hab hba => absurd hab (Nat.lt_asymm hba))
      (pairwise_ones word) (List.pairwise_lt_range.filter _) ?_
    refine (List.perm_ext_iff_of_nodup (pairwise_ones word).nodup
      (List.nodup_range.filter _)).2 fun k => ?_
    rw [mem_ones_iff, List.mem_filter, List.mem_range]
    refine ⟨fun hk => ⟨lt_of_mem_ones ((mem_ones_iff word k).2 hk), hk⟩, fun hk => hk.2⟩
  rw [hfilter, ← List.countP_eq_length_filter, countP_testBit word.toNat_lt]

end Word

section Layout

variable {rows size i j k a b : Nat}

/-- A column belongs to a word of the row, unless the row ends before it. -/
theorem div_lt_rowWords_iff : j / 64 < rowWords size ↔ j < 64 * rowWords size := by
  omega

theorem lt_rowWords_mul (hj : j < size) : j < 64 * rowWords size := by
  rw [rowWords]
  omega

theorem eq_of_div_mod_eq (hdiv : i / 64 = j / 64) (hmod : i % 64 = j % 64) : i = j := by
  omega

/-- The words of different rows, and different words of a row, have different places. -/
theorem place_eq_iff {width : Nat} (hk : k < width) (hb : b < width) :
    i * width + k = a * width + b ↔ i = a ∧ k = b := by
  refine ⟨fun h => ?_, fun h => by rw [h.1, h.2]⟩
  have hdiv : ∀ {r c : Nat}, c < width → (r * width + c) / width = r := fun {r c} hc => by
    rw [Nat.mul_comm, Nat.mul_add_div (Nat.lt_of_le_of_lt (Nat.zero_le c) hc), Nat.div_eq_of_lt hc,
      Nat.add_zero]
  have hrow : i = a := by
    have hi : (i * width + k) / width = i := hdiv hk
    rw [← hi, h, hdiv hb]
  refine ⟨hrow, ?_⟩
  rw [hrow] at h
  exact Nat.add_left_cancel h

/-- The words of a row have places in the vector exactly if the row belongs to the table. -/
theorem place_lt_iff {width : Nat} (hk : k < width) : i * width + k < rows * width ↔ i < rows := by
  refine ⟨fun h => ?_, fun h => ?_⟩
  · by_contra hge
    have hle : rows * width ≤ i * width := Nat.mul_le_mul_right width (Nat.le_of_not_lt hge)
    omega
  · have hle : (i + 1) * width ≤ rows * width := Nat.mul_le_mul_right width h
    rw [Nat.succ_mul] at hle
    omega

theorem map_range_mul {α : Type} (g : Nat → α) (rows width : Nat) :
    (List.range (rows * width)).map g =
      (List.range rows).flatMap fun i => (List.range width).map fun k => g (i * width + k) := by
  induction rows with
  | zero => rw [Nat.zero_mul, List.range_zero, List.map_nil, List.flatMap_nil]
  | succ rows ih =>
    rw [Nat.succ_mul, List.range_add, List.map_append, ih, List.range_succ, List.flatMap_append,
      List.flatMap_singleton, List.map_map]
    rfl

end Layout

namespace Cells

variable {rows size : Nat} (cells : Cells rows size) {i j a b k : Nat}

theorem word_eq_zero (h : ¬ (i < rows ∧ k < rowWords size)) : cells.word i k = 0 := by
  rw [word]
  split
  · rename_i hk
    have hplace : rows * rowWords size ≤ i * rowWords size + k :=
      Nat.le_of_not_lt fun hlt => h ⟨(place_lt_iff hk).1 hlt, hk⟩
    rw [Vector.getElem?_eq_none hplace, Option.getD_none]
  · rfl

theorem word_update (change : UInt64 → UInt64) (hi : i < rows) (hk : k < rowWords size) :
    (cells.update i k change).word a b =
      if a = i ∧ b = k then change (cells.word i k) else cells.word a b := by
  by_cases hb : b < rowWords size
  · rw [update, if_pos hk, word, if_pos hb, Vector.getElem?_setIfInBounds]
    by_cases hsame : a = i ∧ b = k
    · rw [if_pos hsame, if_pos (by rw [hsame.1, hsame.2]), if_pos ((place_lt_iff hk).2 hi),
        Option.getD_some]
    · have hplace : i * rowWords size + k ≠ a * rowWords size + b := fun h =>
        hsame ⟨((place_eq_iff hk hb).1 h).1.symm, ((place_eq_iff hk hb).1 h).2.symm⟩
      rw [if_neg hsame, if_neg hplace, word, if_pos hb]
  · have hsame : ¬ (a = i ∧ b = k) := fun h => hb (h.2 ▸ hk)
    rw [if_neg hsame, word_eq_zero _ (fun h => hb h.2), word_eq_zero _ (fun h => hb h.2)]

/-- Changing the words of a row one after the other changes each of them once. -/
theorem word_updateRow (change : Nat → UInt64 → UInt64) (hi : i < rows) :
    (cells.updateRow i change).word a b =
      if a = i ∧ b < rowWords size then change b (cells.word i b) else cells.word a b := by
  have hfold : ∀ n ≤ rowWords size,
      ((List.range n).foldl (fun cells k => cells.update i k (change k)) cells).word a b =
        if a = i ∧ b < n then change b (cells.word i b) else cells.word a b := by
    intro n
    -- Both the word itself and the word that the change reads are needed from the earlier steps.
    induction n generalizing a b with
    | zero => simp
    | succ n ih =>
      intro hn
      rw [List.range_succ, List.foldl_append, List.foldl_cons, List.foldl_nil,
        word_update _ _ hi hn]
      by_cases hsame : a = i ∧ b = n
      · rw [if_pos hsame, ih (Nat.le_of_succ_le hn), if_neg (by omega), hsame.2,
          if_pos ⟨hsame.1, Nat.lt_succ_self n⟩]
      · have hiff : a = i ∧ b < n ↔ a = i ∧ b < n + 1 := by omega
        rw [if_neg hsame, ih (Nat.le_of_succ_le hn), if_congr hiff rfl rfl]
  exact hfold _ le_rfl

theorem lt_of_test (h : cells.test i j = true) : i < rows ∧ j < 64 * rowWords size := by
  by_contra hout
  have hzero : cells.word i (j / 64) = 0 :=
    cells.word_eq_zero fun hin => hout ⟨hin.1, div_lt_rowWords_iff.1 hin.2⟩
  rw [test, hzero, Word.test_zero (Nat.mod_lt j (by decide))] at h
  exact Bool.false_ne_true h

/-! ### Listings -/

theorem mem_ones_iff : j ∈ cells.ones i ↔ cells.test i j = true := by
  have hbit : ∀ j, cells.test i j = (cells.word i (j / 64)).toNat.testBit (j % 64) := fun j =>
    Word.test_eq_testBit _ (Nat.mod_lt j (by decide))
  rw [ones, List.mem_flatMap]
  constructor
  · rintro ⟨k, -, hj⟩
    rcases List.mem_map.1 hj with ⟨c, hc, rfl⟩
    have hlt := Word.lt_of_mem_ones hc
    rw [hbit, show (64 * k + c) / 64 = k by omega, show (64 * k + c) % 64 = c by omega]
    exact (Word.mem_ones_iff _ _).1 hc
  · intro hj
    refine ⟨j / 64, List.mem_range.2 (div_lt_rowWords_iff.2 (cells.lt_of_test hj).2), ?_⟩
    rw [hbit] at hj
    exact List.mem_map.2 ⟨j % 64, (Word.mem_ones_iff _ _).2 hj, by omega⟩

theorem pairwise_ones (i : Nat) : (cells.ones i).Pairwise (· < ·) := by
  refine List.pairwise_flatMap.2 ⟨fun k _ => ?_, ?_⟩
  · refine List.pairwise_map.2 ((Word.pairwise_ones _).imp fun h => ?_)
    omega
  · refine List.pairwise_lt_range.imp fun {k l} hkl x hx y hy => ?_
    rcases List.mem_map.1 hx with ⟨c, hc, rfl⟩
    rcases List.mem_map.1 hy with ⟨d, -, rfl⟩
    have hlt := Word.lt_of_mem_ones hc
    omega

theorem toList_words : cells.words.toList =
    (List.range rows).flatMap fun i => (List.range (rowWords size)).map (cells.word i) := by
  have hlist : cells.words.toList =
      (List.range (rows * rowWords size)).map fun place => cells.words[place]?.getD 0 := by
    refine List.ext_getElem (by simp) fun place h _ => ?_
    rw [List.getElem_map, List.getElem_range, Vector.getElem?_eq_getElem (by simpa using h),
      Option.getD_some, Vector.getElem_toList]
  rw [hlist, map_range_mul]
  refine List.flatMap_congr fun i _ => List.map_congr_left fun k hk => ?_
  rw [word, if_pos (List.mem_range.1 hk)]

/-- The count of a table adds up the lengths of the listings of its rows. -/
theorem count_eq : cells.count = total (fun i => (cells.ones i).length) (List.range rows) := by
  rw [count, toList_words, total_flatMap]
  refine total_congr fun i _ => ?_
  rw [ones, length_flatMap_eq_total, total_map]
  refine total_congr fun k _ => ?_
  rw [List.length_map, Word.length_ones]

/-! ### Operations -/

@[simp]
theorem test_empty : (empty : Cells rows size).test i j = false := by
  have hword : (empty : Cells rows size).word i (j / 64) = 0 := by
    rw [word, empty, Vector.getElem?_replicate]
    split
    · split <;> rfl
    · rfl
  rw [test, hword, Word.test_zero (Nat.mod_lt j (by decide))]

theorem test_set (hi : i < rows) (hj : j < 64 * rowWords size) :
    (cells.set i j).test a b = (cells.test a b || decide (i = a ∧ j = b)) := by
  have hmod : ∀ c : Nat, c % 64 < 64 := fun c => Nat.mod_lt c (by decide)
  rw [test, set, word_update _ _ hi (div_lt_rowWords_iff.2 hj)]
  by_cases hword : a = i ∧ b / 64 = j / 64
  · have hiff : j % 64 = b % 64 ↔ i = a ∧ j = b :=
      ⟨fun h => ⟨hword.1.symm, eq_of_div_mod_eq hword.2.symm h⟩, fun h => h.2 ▸ rfl⟩
    have hsame : cells.test a b = Word.test (cells.word i (j / 64)) (b % 64) := by
      rw [test, hword.1, hword.2]
    rw [if_pos hword, Word.test_or_single _ (hmod j) (hmod b), hsame, decide_eq_decide.2 hiff]
  · have hne : ¬ (i = a ∧ j = b) := fun h => hword ⟨h.1.symm, h.2 ▸ rfl⟩
    rw [if_neg hword, decide_eq_false hne, Bool.or_false, test]

@[simp]
theorem test_join (other : Cells rows size) :
    (cells.join other).test i j = (cells.test i j || other.test i j) := by
  have hword : (cells.join other).word i (j / 64) =
      cells.word i (j / 64) ||| other.word i (j / 64) := by
    by_cases hin : i < rows ∧ j / 64 < rowWords size
    · have hplace : i * rowWords size + j / 64 < rows * rowWords size := (place_lt_iff hin.2).2 hin.1
      rw [word, word, word, join, if_pos hin.2, if_pos hin.2, if_pos hin.2,
        Vector.getElem?_eq_getElem hplace, Vector.getElem?_eq_getElem hplace,
        Vector.getElem?_eq_getElem hplace, Vector.getElem_zipWith]
      rfl
    · rw [word_eq_zero _ hin, word_eq_zero _ hin, word_eq_zero _ hin]
      rfl
  rw [test, hword, Word.test_or _ _ (Nat.mod_lt j (by decide)), test, test]

@[simp]
theorem test_row : (cells.row i).test 0 j = cells.test i j := by
  have hword : (cells.row i).word 0 (j / 64) = cells.word i (j / 64) := by
    by_cases hlt : j / 64 < rowWords size
    · rw [word, if_pos hlt, row, Vector.getElem?_ofFn, dif_pos (by omega), Option.getD_some]
      show cells.word i (0 * rowWords size + j / 64) = _
      rw [Nat.zero_mul, Nat.zero_add]
    · rw [word_eq_zero _ fun h => hlt h.2, word_eq_zero _ fun h => hlt h.2]
  rw [test, hword, test]

theorem test_putRow (row : CellRow size) (hi : i < rows) :
    (cells.putRow i row).test a b = if a = i then row.test 0 b else cells.test a b := by
  rw [test, putRow, word_updateRow _ _ hi]
  by_cases ha : a = i
  · by_cases hb : b / 64 < rowWords size
    · rw [if_pos ⟨ha, hb⟩, if_pos ha, test]
    · rw [if_neg fun h => hb h.2, if_pos ha, word_eq_zero _ fun h => hb h.2, test,
        word_eq_zero _ fun h => hb h.2]
  · rw [if_neg fun h => ha h.1, if_neg ha, test]

theorem test_joinRow (row : CellRow size) (hi : i < rows) :
    (cells.joinRow i row).test a b = (cells.test a b || decide (a = i) && row.test 0 b) := by
  rw [test, joinRow, word_updateRow _ _ hi]
  by_cases ha : a = i
  · by_cases hb : b / 64 < rowWords size
    · rw [if_pos ⟨ha, hb⟩, Word.test_or _ _ (Nat.mod_lt b (by decide)), decide_eq_true ha,
        Bool.true_and, test, test, ha]
    · have hrow : row.test 0 b = false := by
        rw [test, word_eq_zero _ fun h => hb h.2, Word.test_zero (Nat.mod_lt b (by decide))]
      rw [if_neg fun h => hb h.2, hrow, Bool.and_false, Bool.or_false, test]
  · rw [if_neg fun h => ha h.1, decide_eq_false ha, Bool.false_and, Bool.or_false, test]

theorem test_word {c : Nat} (hc : c < 64) : Word.test (cells.word i k) c = cells.test i (64 * k + c) := by
  rw [test, show (64 * k + c) / 64 = k by omega, show (64 * k + c) % 64 = c by omega]

theorem ext_test {one other : Cells rows size} (h : ∀ i j, one.test i j = other.test i j) :
    one = other := by
  have hword : one.word = other.word := by
    refine funext fun i => funext fun k => Word.ext_test fun c hc => ?_
    rw [test_word one hc, test_word other hc, h]
  have hwords : one.words = other.words :=
    Vector.toList_inj.1 (by rw [one.toList_words, other.toList_words, hword])
  cases one
  cases other
  exact congrArg Cells.mk hwords

theorem row_congr {other : Cells rows size} (h : ∀ k, cells.word a k = other.word a k) :
    cells.row a = other.row a := by
  rw [row, row]
  congr 2
  exact funext fun k => h k

theorem row_set_of_ne (hi : i < rows) (hj : j < 64 * rowWords size) (ha : a ≠ i) :
    (cells.set i j).row a = cells.row a := by
  refine row_congr _ fun k => ?_
  rw [set, word_update _ _ hi (div_lt_rowWords_iff.2 hj), if_neg fun h => ha h.1]

theorem row_updateRow_of_ne (change : Nat → UInt64 → UInt64) (hi : i < rows) (ha : a ≠ i) :
    (cells.updateRow i change).row a = cells.row a := by
  refine row_congr _ fun k => ?_
  rw [word_updateRow _ _ hi, if_neg fun h => ha h.1]

end Cells

end Isolation
