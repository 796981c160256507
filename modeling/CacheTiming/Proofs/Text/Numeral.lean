import CacheTiming.Proofs.Text.Blank
import CacheTiming.Text.Numeral
import Mathlib.Data.List.Chain
import Mathlib.Data.Nat.Digits.Defs
import Mathlib.Tactic.Ring

/-! Literals and the numbers that they stand for.

What is read as a number is just a literal: digits of some base behind the mark of that base, with single
`_` between them. -/

namespace CacheTiming.Text

/-- The values of the digits of a text, all below the base; a `_` among them counts for nothing. -/
inductive DigitsOf (base : Nat) : Bytes → List Nat → Prop where
  | nil : DigitsOf base [] []
  | skip {s : Bytes} {ds : List Nat} (rest : DigitsOf base s ds) : DigitsOf base (underscore :: s) ds
  | digit {b : UInt8} {d : Nat} {s : Bytes} {ds : List Nat} (value : digitValue? b = some d) (lt : d < base)
      (rest : DigitsOf base s ds) : DigitsOf base (b :: s) (d :: ds)

/-- Digits of a number in a base, the most significant first. -/
def Digits (base : Nat) (s : Bytes) (n : Nat) : Prop := ∃ ds, DigitsOf base s ds ∧ Nat.ofDigits base ds.reverse = n

/-- Every `_` stands between two digits, where a mark in front counts as a digit. -/
structure Separated (marked : Bool) (s : Bytes) : Prop where
  first : s.head? = some underscore → marked = true
  last : s.getLast? ≠ some underscore
  apart : s.IsChain fun a b => ¬ (a = underscore ∧ b = underscore)

/-- The letters behind a zero that mark a base. -/
inductive Mark : UInt8 → Nat → Prop where
  /-- `B` or `b`. -/
  | binary {mark : UInt8} (letter : mark = 66 ∨ mark = 98) : Mark mark 2
  /-- `O` or `o`. -/
  | octal {mark : UInt8} (letter : mark = 79 ∨ mark = 111) : Mark mark 8
  /-- `X` or `x`. -/
  | hexadecimal {mark : UInt8} (letter : mark = 88 ∨ mark = 120) : Mark mark 16

/-- A literal, and the number that it stands for. -/
inductive Literal : Bytes → Nat → Prop where
  | decimal {s : Bytes} {n : Nat} (ne_nil : s ≠ []) (first : s.head? ≠ some 48) (digits : Digits 10 s n)
      (separated : Separated false s) : Literal s n
  | octal {s : Bytes} {n : Nat} (digits : Digits 8 s n) (separated : Separated true s) : Literal (48 :: s) n
  | marked {mark : UInt8} {base : Nat} {s : Bytes} {n : Nat} (letter : Mark mark base) (ne_nil : s ≠ [])
      (digits : Digits base s n) (separated : Separated true s) : Literal (48 :: mark :: s) n

variable {base n m : Nat} {s : Bytes} {b mark : UInt8} {digit marked : Bool} {v : UInt64}

/-! ### Digits -/

theorem ofDigits_reverse_cons (base n d : Nat) (ds : List Nat) :
    n * base ^ (d :: ds).length + Nat.ofDigits base (d :: ds).reverse =
      (n * base + d) * base ^ ds.length + Nat.ofDigits base ds.reverse := by
  rw [List.reverse_cons, Nat.ofDigits_append, List.length_reverse, List.length_cons, Nat.ofDigits_singleton]
  ring

/-- Digits are read if the number that they continue fits 64 bits. -/
theorem readDigits_eq_ok (hbase : 0 < base) (hn : n < UInt64.size) :
    readDigits base n s = .ok m ↔
      m < UInt64.size ∧ ∃ ds, DigitsOf base s ds ∧ n * base ^ ds.length + Nat.ofDigits base ds.reverse = m := by
  induction s generalizing n with
  | nil =>
    constructor
    · rintro ⟨⟩
      exact ⟨hn, [], .nil, by simp⟩
    · rintro ⟨-, ds, ⟨⟩, rfl⟩
      simp [readDigits]
  | cons b s ih =>
    rw [readDigits]
    split
    · rename_i hb
      subst hb
      rw [ih hn]
      refine and_congr_right fun _ => exists_congr fun ds => and_congr_left fun _ => ⟨.skip, fun h => ?_⟩
      cases h with
      | skip rest => exact rest
      | digit value => cases value
    · rename_i hb
      -- What the digit adds to a number is read off the rest of the digits.
      have cons_iff : (∃ ds, DigitsOf base (b :: s) ds ∧ n * base ^ ds.length + Nat.ofDigits base ds.reverse = m) ↔
          ∃ d, digitValue? b = some d ∧ d < base ∧
            ∃ ds, DigitsOf base s ds ∧ (n * base + d) * base ^ ds.length + Nat.ofDigits base ds.reverse = m := by
        constructor
        · rintro ⟨ds, h, hm⟩
          cases h with
          | skip => exact absurd rfl hb
          | digit value lt rest => exact ⟨_, value, lt, _, rest, ofDigits_reverse_cons .. ▸ hm⟩
        · rintro ⟨d, value, lt, ds, rest, hm⟩
          exact ⟨d :: ds, .digit value lt rest, (ofDigits_reverse_cons ..).trans hm⟩
      rw [cons_iff]
      cases hd : digitValue? b with
      | none => simp
      | some d =>
        simp only [Option.some.injEq, exists_eq_left']
        split
        · rename_i hle
          simp [Nat.not_lt.mpr hle]
        split
        · rename_i hlt hsize
          simp only [reduceCtorEq, false_iff]
          rintro ⟨hm, -, ds, -, rfl⟩
          have hpow := Nat.le_mul_of_pos_right (n * base + d) (Nat.pow_pos (n := ds.length) hbase)
          omega
        · rename_i hlt hsize
          rw [ih (Nat.not_le.mp hsize)]
          simp [Nat.not_le.mp hlt]

theorem readDigits_zero_eq_ok (hbase : 0 < base) : readDigits base 0 s = .ok m ↔ m < UInt64.size ∧ Digits base s m := by
  rw [readDigits_eq_ok hbase (by decide)]
  simp [Digits]

/-! ### Separators -/

theorem separated_nil (marked : Bool) : Separated marked [] := ⟨by simp, by simp, .nil⟩

theorem separated_cons :
    Separated marked (b :: s) ↔ (b = underscore → marked = true ∧ s ≠ []) ∧ Separated (decide (b ≠ underscore)) s := by
  cases s with
  | nil =>
    constructor
    · rintro ⟨-, last, -⟩
      exact ⟨fun hb => absurd (congrArg some hb) last, separated_nil _⟩
    · rintro ⟨hb, -⟩
      have hne : b ≠ underscore := fun h => (hb h).2 rfl
      exact ⟨by simp [hne], by simp [hne], .singleton _⟩
  | cons c s =>
    constructor
    · rintro ⟨first, last, apart⟩
      obtain ⟨hbc, hrest⟩ := List.isChain_cons_cons.mp apart
      refine ⟨fun hb => ⟨first (by simp [hb]), by simp⟩, ?_, by simpa using last, hrest⟩
      intro hc
      simp only [List.head?_cons, Option.some.injEq] at hc
      simpa [hc] using hbc
    · rintro ⟨hb, first, last, apart⟩
      refine ⟨fun h => (hb (by simpa using h)).1, by simpa using last, List.isChain_cons_cons.mpr ⟨?_, apart⟩⟩
      rintro ⟨rfl, rfl⟩
      simpa using first rfl

theorem wellSeparated_iff : wellSeparated digit s = true ↔ (s = [] → digit = true) ∧ Separated digit s := by
  induction s generalizing digit with
  | nil => exact ⟨fun h => ⟨fun _ => h, separated_nil _⟩, fun h => h.1 rfl⟩
  | cons b s ih =>
    rw [wellSeparated, separated_cons]
    split
    · rename_i hb
      rw [Bool.and_eq_true, ih]
      simp [hb, and_assoc]
    · rename_i hb
      rw [ih]
      simp [hb]

theorem separated_of_not_mem (h : underscore ∉ s) : Separated marked s := by
  induction s generalizing marked with
  | nil => exact separated_nil _
  | cons b s ih =>
    rw [List.mem_cons, not_or] at h
    exact separated_cons.mpr ⟨fun hb => absurd hb.symm h.1, ih h.2⟩

/-- The check on separators passes just if all of them are between digits. -/
theorem separated_iff : ¬ (underscore ∈ s ∧ (!wellSeparated marked s) = true) ↔ Separated marked s := by
  by_cases hs : underscore ∈ s
  · have hne : s ≠ [] := List.ne_nil_of_mem hs
    have hiff : wellSeparated marked s = true ↔ _ := wellSeparated_iff
    simp only [hne, false_implies, true_and] at hiff
    simp [hs, hiff]
  · exact ⟨fun _ => separated_of_not_mem hs, fun _ h => hs h.1⟩

/-! ### Literals -/

theorem lowerByte_eq_iff {letter : UInt8} (h : letter = 98 ∨ letter = 111 ∨ letter = 120) :
    lowerByte mark = letter ↔ mark = letter - 32 ∨ mark = letter := by
  have hall : ∀ n < 256, ∀ letter ∈ [98, 111, 120],
      lowerByte (UInt8.ofNat n) = letter ↔ UInt8.ofNat n = letter - 32 ∨ UInt8.ofNat n = letter := by decide +kernel
  have hmark := hall mark.toNat mark.toNat_lt letter (by simpa using h)
  rwa [UInt8.ofNat_toNat] at hmark

theorem readNumeral_of_splitBase {digits : Bytes} (hne : s ≠ []) (hbase : 0 < base)
    (h : splitBase s = (base, marked, digits)) :
    readNumeral s = .ok v ↔ Digits base digits v.toNat ∧ Separated marked digits := by
  rw [readNumeral, if_neg (by simpa using hne), h]
  dsimp only
  constructor
  · intro hread
    split at hread
    · cases hread
    · rename_i n hdigits
      obtain ⟨hn, hdigits⟩ := (readDigits_zero_eq_ok hbase).mp hdigits
      split at hread
      · cases hread
      · rename_i hseparated
        cases hread
        rw [Nat.toUInt64_eq, UInt64.toNat_ofNat_of_lt' hn]
        exact ⟨hdigits, separated_iff.mp hseparated⟩
  · rintro ⟨hdigits, hseparated⟩
    rw [(readDigits_zero_eq_ok hbase).mpr ⟨v.toNat_lt, hdigits⟩]
    dsimp only
    rw [if_neg (separated_iff.mpr hseparated), Nat.toUInt64_eq, UInt64.ofNat_toNat]

theorem Mark.base_pos (h : Mark mark base) : 0 < base := by
  cases h <;> decide

theorem splitBase_marked (h : Mark mark base) (hne : s ≠ []) : splitBase (48 :: mark :: s) = (base, true, s) := by
  obtain ⟨d, rest, rfl⟩ := List.exists_cons_of_ne_nil hne
  cases h with
  | binary letter => rcases letter with rfl | rfl <;> rfl
  | octal letter => rcases letter with rfl | rfl <;> rfl
  | hexadecimal letter => rcases letter with rfl | rfl <;> rfl

/-- A zero is the mark of base eight, unless a letter and more digits follow it. -/
theorem splitBase_zero (h : ∀ mark base rest, s = mark :: rest → Mark mark base → rest = []) :
    splitBase (48 :: s) = (8, true, s) := by
  match s with
  | [] => rfl
  | [mark] => rfl
  | mark :: d :: rest =>
    have hne : ∀ base, ¬ Mark mark base := fun base hmark => by cases h mark base _ rfl hmark
    have hbinary : lowerByte mark ≠ 98 := fun hl => hne 2 (.binary ((lowerByte_eq_iff (by simp)).mp hl))
    have hoctal : lowerByte mark ≠ 111 := fun hl => hne 8 (.octal ((lowerByte_eq_iff (by simp)).mp hl))
    have hhex : lowerByte mark ≠ 120 := fun hl => hne 16 (.hexadecimal ((lowerByte_eq_iff (by simp)).mp hl))
    rw [splitBase, if_neg hbinary, if_neg hoctal, if_neg hhex]

theorem splitBase_decimal (h : s.head? ≠ some 48) : splitBase s = (10, false, s) := by
  unfold splitBase
  split
  · simp at h
  · simp at h
  · rfl

/-- No letter that marks a base is a digit of base eight. -/
theorem Mark.not_digit (h : Mark mark base) {n : Nat} : ¬ Digits 8 (mark :: s) n := by
  rintro ⟨ds, hds, -⟩
  have hvalue : ∃ d, digitValue? mark = some d ∧ 8 ≤ d := by
    cases h with
    | binary letter => rcases letter with rfl | rfl <;> exact ⟨11, by decide⟩
    | octal letter => rcases letter with rfl | rfl <;> exact ⟨24, by decide⟩
    | hexadecimal letter => rcases letter with rfl | rfl <;> exact ⟨33, by decide⟩
  obtain ⟨d, hd, hle⟩ := hvalue
  cases hds with
  | skip => cases hd
  | digit value lt =>
    rw [hd] at value
    cases value
    omega

/-- What is read as a number is a literal of it. -/
theorem readNumeral_eq_ok : readNumeral s = .ok v ↔ Literal s v.toNat := by
  constructor
  · intro h
    cases s with
    | nil => cases h
    | cons b s =>
      have hne : b :: s ≠ [] := by simp
      -- The first bytes decide on the base, in the order in which the rules for marks apply.
      by_cases hb : b = 48
      · subst hb
        by_cases hmarked : ∃ mark base rest, s = mark :: rest ∧ Mark mark base ∧ rest ≠ []
        · obtain ⟨mark, base, rest, rfl, hmark, hrest⟩ := hmarked
          obtain ⟨hdigits, hseparated⟩ :=
            (readNumeral_of_splitBase hne hmark.base_pos (splitBase_marked hmark hrest)).mp h
          exact .marked hmark hrest hdigits hseparated
        · have hzero : splitBase (48 :: s) = (8, true, s) := splitBase_zero fun mark base rest hs hmark => by
            by_contra hrest
            exact hmarked ⟨mark, base, rest, hs, hmark, hrest⟩
          obtain ⟨hdigits, hseparated⟩ := (readNumeral_of_splitBase hne (by decide) hzero).mp h
          exact .octal hdigits hseparated
      · have hhead : (b :: s).head? ≠ some 48 := by simpa using hb
        obtain ⟨hdigits, hseparated⟩ := (readNumeral_of_splitBase hne (by decide) (splitBase_decimal hhead)).mp h
        exact .decimal hne hhead hdigits hseparated
  · intro h
    generalize hn : v.toNat = n at h
    cases h with
    | decimal ne_nil first digits separated =>
      subst hn
      exact (readNumeral_of_splitBase ne_nil (by decide) (splitBase_decimal first)).mpr ⟨digits, separated⟩
    | @octal s n digits separated =>
      subst hn
      have hzero : splitBase (48 :: s) = (8, true, s) := splitBase_zero fun mark base rest hs hmark => by
        rw [hs] at digits
        exact absurd digits hmark.not_digit
      exact (readNumeral_of_splitBase (by simp) (by decide) hzero).mpr ⟨digits, separated⟩
    | marked letter ne_nil digits separated =>
      subst hn
      exact (readNumeral_of_splitBase (by simp) letter.base_pos (splitBase_marked letter ne_nil)).mpr ⟨digits, separated⟩

theorem alphanumeric_of_digitValue? {d : Nat} (h : digitValue? b = some d) : Alphanumeric b := by
  have hall : ∀ n < 256, digitValue? (UInt8.ofNat n) ≠ none → Alphanumeric (UInt8.ofNat n) := by decide +kernel
  have hb := hall b.toNat b.toNat_lt
  rw [UInt8.ofNat_toNat, h] at hb
  exact hb (by simp)

theorem Mark.alphanumeric (h : Mark mark base) : Alphanumeric mark := by
  cases h with
  | binary letter => rcases letter with rfl | rfl <;> decide
  | octal letter => rcases letter with rfl | rfl <;> decide
  | hexadecimal letter => rcases letter with rfl | rfl <;> decide

theorem DigitsOf.alphanumeric {ds : List Nat} (h : DigitsOf base s ds) : ∀ b ∈ s, Alphanumeric b := by
  induction h with
  | nil => simp
  | skip _ ih => exact List.forall_mem_cons.mpr ⟨by decide, ih⟩
  | digit value _ _ ih => exact List.forall_mem_cons.mpr ⟨alphanumeric_of_digitValue? value, ih⟩

theorem Literal.ne_nil (h : Literal s n) : s ≠ [] := by
  cases h with
  | decimal ne_nil => exact ne_nil
  | octal | marked => simp

theorem Literal.alphanumeric (h : Literal s n) : ∀ b ∈ s, Alphanumeric b := by
  cases h with
  | decimal _ _ digits =>
    obtain ⟨ds, hds, -⟩ := digits
    exact hds.alphanumeric
  | octal digits =>
    obtain ⟨ds, hds, -⟩ := digits
    exact List.forall_mem_cons.mpr ⟨by decide, hds.alphanumeric⟩
  | marked letter _ digits =>
    obtain ⟨ds, hds, -⟩ := digits
    exact List.forall_mem_cons.mpr ⟨by decide, List.forall_mem_cons.mpr ⟨letter.alphanumeric, hds.alphanumeric⟩⟩

/-- A literal is a word. -/
theorem Literal.solid (h : Literal s n) : Solid s := solid_of_alphanumeric h.ne_nil h.alphanumeric

/-! ### Hexadecimal numbers -/

theorem DigitsOf.append {s t : Bytes} {ds es : List Nat} (hs : DigitsOf base s ds) (ht : DigitsOf base t es) :
    DigitsOf base (s ++ t) (ds ++ es) := by
  induction hs with
  | nil => exact ht
  | skip _ ih => exact .skip ih
  | digit value lt _ ih => exact .digit value lt ih

/-- The byte of a hexadecimal digit. -/
def hexByte (d : Nat) : UInt8 := UInt8.ofNat (if d < 10 then 48 + d else 87 + d)

theorem encode_digitChar {d : Nat} (h : d < 16) :
    String.utf8EncodeChar d.digitChar = [hexByte d] ∧ digitValue? (hexByte d) = some d ∧ hexByte d ≠ underscore := by
  have hall : ∀ d < 16, String.utf8EncodeChar d.digitChar = [hexByte d] ∧ digitValue? (hexByte d) = some d ∧
      hexByte d ≠ underscore := by decide +kernel
  exact hall d h

/-- The hexadecimal digits of a number are read as that number. -/
theorem digits_hexDigits (n : Nat) :
    Digits 16 ((hexDigits n).flatMap String.utf8EncodeChar) n ∧
      underscore ∉ (hexDigits n).flatMap String.utf8EncodeChar := by
  induction n using Nat.strongRecOn with
  | _ n ih =>
    by_cases hn : n < 16
    · obtain ⟨hbyte, hvalue, hne⟩ := encode_digitChar hn
      rw [hexDigits, Nat.toDigits_of_lt_base hn, List.flatMap_singleton, hbyte]
      exact ⟨⟨[n], .digit hvalue hn .nil, by simp⟩, by simpa using hne.symm⟩
    · obtain ⟨⟨ds, hds, hsum⟩, hmem⟩ := ih (n / 16) (by omega)
      obtain ⟨hbyte, hvalue, hne⟩ := encode_digitChar (Nat.mod_lt n (by decide : 16 > 0))
      rw [hexDigits] at hds hmem
      rw [hexDigits, Nat.toDigits_of_base_le (by decide) (Nat.not_lt.mp hn), List.flatMap_append, List.flatMap_singleton,
        hbyte]
      refine ⟨⟨ds ++ [n % 16], hds.append (.digit hvalue (Nat.mod_lt n (by decide)) .nil), ?_⟩, ?_⟩
      · rw [List.reverse_append, List.reverse_singleton, List.singleton_append, Nat.ofDigits_cons, hsum]
        omega
      · rw [List.mem_append, List.mem_singleton, not_or]
        exact ⟨hmem, hne.symm⟩

theorem length_hexDigits_le {e : Nat} (he : 0 < e) (hn : n < 16 ^ e) :
    ((hexDigits n).flatMap String.utf8EncodeChar).length ≤ e := by
  induction e generalizing n with
  | zero => cases he
  | succ e ih =>
    by_cases hlt : n < 16
    · rw [hexDigits, Nat.toDigits_of_lt_base hlt, List.flatMap_singleton, (encode_digitChar hlt).1]
      exact Nat.le_add_left 1 e
    · have hpow : n < 16 ^ e * 16 := hn
      have hquot : n / 16 < 16 ^ e := Nat.div_lt_of_lt_mul (by omega)
      have hpos : 0 < e := by
        rcases Nat.eq_zero_or_pos e with rfl | hpos
        · omega
        · exact hpos
      have hrest := ih hpos hquot
      rw [hexDigits] at hrest
      rw [hexDigits, Nat.toDigits_of_base_le (by decide) (Nat.not_lt.mp hlt), List.flatMap_append, List.flatMap_singleton,
        (encode_digitChar (Nat.mod_lt n (by decide : 16 > 0))).1, List.length_append]
      exact Nat.add_le_add_right hrest 1

theorem utf8_hex (n : Nat) : utf8 (hex 0 n) = (hexDigits n).flatMap String.utf8EncodeChar := by
  rw [utf8_eq, hex, String.toList_ofList, Nat.zero_sub, List.replicate_zero, List.nil_append]

theorem utf8_hex_marked (n : Nat) :
    utf8 ("0x" ++ hex 0 n) = 48 :: 120 :: (hexDigits n).flatMap String.utf8EncodeChar := by
  rw [utf8_append, utf8_hex]
  rfl

/-- A number in hexadecimal behind its mark is a literal of the number. -/
theorem literal_hex (n : Nat) : Literal (utf8 ("0x" ++ hex 0 n)) n := by
  obtain ⟨hdigits, hmem⟩ := digits_hexDigits n
  rw [utf8_hex_marked]
  refine .marked (.hexadecimal (Or.inr rfl)) ?_ hdigits (separated_of_not_mem hmem)
  obtain ⟨c, cs, hcons⟩ := List.exists_cons_of_length_pos (Nat.length_toDigits_pos (b := 16) (n := n))
  rw [hexDigits, hcons, List.flatMap_cons]
  simp

theorem length_hex_le (v : UInt64) : (utf8 ("0x" ++ hex 0 v.toNat)).length ≤ 18 := by
  rw [utf8_hex_marked, List.length_cons, List.length_cons]
  exact Nat.add_le_add_right (length_hexDigits_le (by decide) (Nat.lt_of_lt_of_eq v.toNat_lt (by decide))) 2

theorem digitChar_inj {d e : Nat} (hd : d < 16) (he : e < 16) (h : d.digitChar = e.digitChar) : d = e := by
  obtain ⟨hd, hvalue, -⟩ := encode_digitChar hd
  obtain ⟨he, hvalue', -⟩ := encode_digitChar he
  rw [h, he] at hd
  rw [← (List.cons.inj hd).1, hvalue'] at hvalue
  exact (Option.some.inj hvalue).symm

theorem toList_hex_two {n : Nat} (h : n < 256) : (hex 2 n).toList = [(n / 16).digitChar, (n % 16).digitChar] := by
  rw [hex, String.toList_ofList, hexDigits]
  by_cases hn : n < 16
  · rw [Nat.toDigits_of_lt_base hn, Nat.div_eq_of_lt hn, Nat.mod_eq_of_lt hn]
    rfl
  · rw [Nat.toDigits_of_base_le (by decide) (Nat.not_lt.mp hn), Nat.toDigits_of_lt_base (by omega)]
    rfl

theorem toList_hexBytes_cons (b : UInt8) (s : Bytes) :
    (hexBytes (b :: s)).toList = (b.toNat / 16).digitChar :: (b.toNat % 16).digitChar :: (hexBytes s).toList := by
  rw [hexBytes, List.map_cons, String.join_cons, String.toList_append, toList_hex_two b.toNat_lt]
  rfl

/-- Bytes are known from their hexadecimal digits. -/
theorem hexBytes_inj {s t : Bytes} (h : hexBytes s = hexBytes t) : s = t := by
  induction s generalizing t with
  | nil =>
    cases t with
    | nil => rfl
    | cons c t =>
      have h := congrArg String.toList h
      rw [toList_hexBytes_cons] at h
      cases h
  | cons b s ih =>
    cases t with
    | nil =>
      have h := congrArg String.toList h
      rw [toList_hexBytes_cons] at h
      cases h
    | cons c t =>
      have h := congrArg String.toList h
      rw [toList_hexBytes_cons, toList_hexBytes_cons] at h
      injection h with hhigh h
      injection h with hlow h
      have hhigh := digitChar_inj (Nat.div_lt_of_lt_mul b.toNat_lt) (Nat.div_lt_of_lt_mul c.toNat_lt) hhigh
      have hlow := digitChar_inj (Nat.mod_lt _ (by decide)) (Nat.mod_lt _ (by decide)) hlow
      have hb : b = c := UInt8.toNat_inj.mp (by omega)
      rw [hb, ih (String.toList_inj.mp h)]

end CacheTiming.Text
