import CacheTiming.Program.Parser
import CacheTiming.Proofs.Text.Numeral
import Mathlib.Data.List.Forall2

/-! The lines of programs.

`Line.Says` is the grammar of what stands on a line between the blanks at its ends and the comment: nothing, a
label and a colon, or the words of an instruction. Reading a line answers just what the grammar allows, and what
it answers has a canonical text that says the same. -/

namespace CacheTiming

open Text

variable {s t w w' word line comment : Bytes} {operands : List Bytes} {b : UInt8} {op : Opcode} {i : Instruction} {l : Line}

/-! ### The names of operations -/

namespace Opcode

/-- A word that is the name of an operation, in capital or small letters. -/
def Names (op : Opcode) (word : Bytes) : Prop :=
  op.isDefined = true ∧
    ∃ letters : List Char, glyphs word = letters.map .char ∧ letters.map capital? = op.name.toList.map some

theorem isBlank_of_capital? {c d : Char} (h : capital? c = some d) : isBlank c = false := by
  have hA : ('A' ≤ c ↔ 65 ≤ c.toNat) := Iff.rfl
  have hZ : (c ≤ 'Z' ↔ c.toNat ≤ 90) := Iff.rfl
  have ha : ('a' ≤ c ↔ 97 ≤ c.toNat) := Iff.rfl
  have hz : (c ≤ 'z' ↔ c.toNat ≤ 122) := Iff.rfl
  have hcases : 64 < c.toNat ∧ c.toNat < 0x80 ∨ c.toNat = 0x131 ∨ c.toNat = 0x17F := by
    simp only [capital?, hA, hZ, ha, hz] at h
    repeat' split at h
    all_goals first | omega | cases h
  simp only [isBlank, Bool.or_eq_false_iff, Bool.and_eq_false_iff, decide_eq_false_iff_not, beq_eq_false_iff_ne]
  omega

theorem mapM_capital?_eq_some {gs : List Glyph} {capitals : List Char} :
    gs.mapM (fun g => g.char?.bind capital?) = some capitals ↔
      ∃ letters : List Char, gs = letters.map .char ∧ letters.map capital? = capitals.map some := by
  induction gs generalizing capitals with
  | nil => cases capitals <;> simp
  | cons g gs ih =>
    simp only [List.mapM_cons, Option.bind_eq_bind, Option.bind_eq_some_iff, ih, Option.pure_def, Option.some.injEq]
    cases g with
    | stray b =>
      constructor
      · rintro ⟨d, ⟨c, ⟨⟩, -⟩, -⟩
      · rintro ⟨letters, hgs, -⟩
        cases letters <;> cases hgs
    | char c =>
      constructor
      · rintro ⟨d, ⟨_, ⟨⟩, hd⟩, ds, ⟨letters, rfl, hletters⟩, rfl⟩
        exact ⟨c :: letters, rfl, by simp [hd, hletters]⟩
      · rintro ⟨letters, hgs, hletters⟩
        cases letters with
        | nil => cases hgs
        | cons c' letters =>
          cases hgs
          cases capitals with
          | nil => cases hletters
          | cons d ds =>
            obtain ⟨hd, hds⟩ := List.cons.inj hletters
            exact ⟨d, ⟨c, rfl, hd⟩, ds, ⟨letters, rfl, hds⟩, rfl⟩

theorem find?_name (h : op.isDefined = true) : (all.find? fun o => o.name = op.name) = some op := by
  cases op with
  | undefined code above => cases h
  | _ => decide

theorem isDefined_of_mem_all (h : op ∈ all) : op.isDefined = true := by
  revert op
  decide

theorem ofWord?_eq_some : ofWord? word = some op ↔ op.Names word := by
  rw [ofWord?, Option.bind_eq_bind, Option.bind_eq_some_iff]
  simp only [Option.bind_eq_bind, mapM_capital?_eq_some]
  constructor
  · rintro ⟨capitals, ⟨letters, hword, hletters⟩, hfind⟩
    have hname := List.find?_some hfind
    rw [decide_eq_true_eq] at hname
    exact ⟨isDefined_of_mem_all (List.mem_of_find?_eq_some hfind), letters, hword, by simp [hname, hletters]⟩
  · rintro ⟨hop, letters, hword, hletters⟩
    exact ⟨op.name.toList, ⟨letters, hword, hletters⟩, by simpa using find?_name hop⟩

theorem names_name (h : op.isDefined = true) : op.Names (utf8 op.name) := by
  refine ⟨h, op.name.toList, ?_, ?_⟩
  · rw [utf8_eq, glyphs_flatMap]
  · cases op with
    | undefined code above => cases h
    | _ => decide

theorem alphanumeric_name (h : op.isDefined = true) : ∀ b ∈ utf8 op.name, Alphanumeric b := by
  cases op with
  | undefined code above => cases h
  | _ => decide +kernel

theorem length_name_le (h : op.isDefined = true) : (utf8 op.name).length ≤ 6 := by
  cases op with
  | undefined code above => cases h
  | _ => decide

namespace Names

theorem solid (h : op.Names word) : Solid word := by
  obtain ⟨hop, letters, hword, hletters⟩ := h
  constructor
  · rintro rfl
    cases letters with
    | cons c letters => cases hword
    | nil =>
      cases op with
      | undefined code above => cases hop
      | _ => cases hletters
  · intro g hg
    rw [hword, List.mem_map] at hg
    obtain ⟨c, hc, rfl⟩ := hg
    have hmem : capital? c ∈ letters.map capital? := List.mem_map_of_mem hc
    rw [hletters, List.mem_map] at hmem
    obtain ⟨d, -, hd⟩ := hmem
    exact isBlank_of_capital? hd.symm

/-- The name in capitals is the shortest of its spellings. -/
theorem length_name_le (h : op.Names word) : (utf8 op.name).length ≤ word.length := by
  obtain ⟨hop, letters, hword, hletters⟩ := h
  have hletters := congrArg List.length hletters
  rw [List.length_map, List.length_map] at hletters
  calc (utf8 op.name).length
    _ = op.name.toList.length := by
      cases op with
      | undefined code above => cases hop
      | _ => decide
    _ = (glyphs word).length := by rw [hword, List.length_map, hletters]
    _ ≤ word.length := length_glyphs_le word

end Names

end Opcode

/-! ### Instructions -/

namespace Instruction

/-- The instruction that words say; a label is not resolved. -/
inductive OfWords : List Bytes → Instruction → Prop where
  | plain {word : Bytes} {op : Opcode} (named : op.Names word) (bare : op.hasOperand = false) : OfWords [word] { op }
  | number {word operand : Bytes} {op : Opcode} {arg : UInt64} (named : op.Names word) (takes : op.hasOperand = true)
      (noLabel : op.takesLabel = false) (literal : Literal operand arg.toNat) : OfWords [word, operand] { op, arg }
  | target {word label : Bytes} {op : Opcode} (named : op.Names word) (takes : op.takesLabel = true) :
      OfWords [word, label] { op, label }

theorem hasOperand_of_takesLabel (h : op.takesLabel = true) : op.hasOperand = true := by
  cases op with
  | branch | jump => rfl
  | _ => cases h

theorem read_eq_ok : read word operands = .ok i ↔ OfWords (word :: operands) i := by
  constructor
  · intro h
    unfold read at h
    split at h
    · cases h
    rename_i op hop
    rw [Opcode.ofWord?_eq_some] at hop
    split at h
    · rename_i htakes
      split at h
      · rename_i operand
        split at h
        · rename_i hlabel
          cases h
          exact .target hop hlabel
        · rename_i hlabel
          split at h
          · rename_i arg harg
            cases h
            exact .number hop htakes (by simpa using hlabel) (readNumeral_eq_ok.mp harg)
          · cases h
      · cases h
    · rename_i htakes
      split at h
      · rename_i hempty
        cases h
        rw [List.isEmpty_iff.mp hempty]
        exact .plain hop (by simpa using htakes)
      · cases h
  · intro h
    cases h with
    | plain named bare => simp [read, Opcode.ofWord?_eq_some.mpr named, bare]
    | number named takes noLabel literal =>
      simp [read, Opcode.ofWord?_eq_some.mpr named, takes, noLabel, readNumeral_eq_ok.mpr literal]
    | target named takes =>
      simp [read, Opcode.ofWord?_eq_some.mpr named, takes, hasOperand_of_takesLabel takes]

end Instruction

/-! ### Lines -/

namespace Line

/-- What stands on a line that says something, without the blanks at its ends and the comment. -/
inductive Says : Line → Bytes → Prop where
  | blank : Says .blank []
  | label {name w : Bytes} (isLabel : isLabel name = true) (trimmed : Trimmed name) (gap : Blank w) :
      Says (.label name) (name ++ w ++ [labelMark])
  | instruction {ws : List Bytes} {i : Instruction} {t : Bytes} (ofWords : i.OfWords ws) (spaced : Spaced ws t)
      (last : t.getLast? ≠ some labelMark) : Says (.instruction i) t

/-- A line that says something. There may be blanks around what it says, and a comment at its end. -/
def Spelled (l : Line) (line : Bytes) : Prop :=
  ∃ w t w' comment, line = w ++ t ++ w' ++ comment ∧ Blank w ∧ Blank w' ∧ l.Says t ∧ commentMark ∉ t ∧
    (comment ≠ [] → comment.head? = some commentMark)

theorem content_eq (line : Bytes) : content line = trim (line.takeWhile (· ≠ commentMark)) := by
  unfold content chomp
  split
  · rename_i hlast
    obtain ⟨line, rfl⟩ := List.getLast?_eq_some_iff.mp hlast
    rw [List.dropLast_concat, List.takeWhile_append]
    -- The carriage return is a blank: it is trimmed off unless it belongs to the comment.
    split
    · rename_i hlength
      rw [List.takeWhile_prefix _ |>.eq_of_length hlength]
      exact (trim_append_blank (blank_ascii (by decide) (by decide))).symm
    · rfl
  · rfl

theorem not_mem_takeWhile (s : Bytes) : commentMark ∉ s.takeWhile (· ≠ commentMark) := by
  intro h
  simpa using List.mem_takeWhile_imp h

theorem Says.trimmed (h : l.Says t) : Trimmed t := by
  cases h with
  | blank => exact trimmed_nil
  | instruction _ spaced => exact spaced.trimmed
  | @label name w isLabel trimmed gap =>
    have hname : glyphs name ≠ [] := by
      intro hnil
      rw [eq_nil_of_glyphs hnil] at isLabel
      cases isLabel
    have hstarts : Starts [labelMark] := by
      rintro b ⟨⟩
      rfl
    have hread : glyphs (name ++ w ++ [labelMark]) = glyphs name ++ glyphs w ++ [.char ':'] := by
      rw [glyphs_append _ hstarts, glyphs_append name gap.starts]
      rfl
    constructor
    · intro g hg
      rw [hread, List.append_assoc, List.head?_append_of_ne_nil _ hname] at hg
      exact trimmed.first g hg
    · intro g hg
      rw [hread, List.getLast?_concat, Option.mem_some_iff] at hg
      subst hg
      rfl

theorem content_append (hw : Blank w) (hw' : Blank w') (ht : Trimmed t) (hmark : commentMark ∉ t)
    (hcomment : comment ≠ [] → comment.head? = some commentMark) : content (w ++ t ++ w' ++ comment) = t := by
  have hkept : ∀ b ∈ w ++ t ++ w', decide (b ≠ commentMark) = true := by
    intro b hb
    rw [decide_eq_true_eq]
    rintro rfl
    rcases List.mem_append.mp hb with hb | hb
    · rcases List.mem_append.mp hb with hb | hb
      · exact hw.not_mem (by decide) (by decide) hb
      · exact hmark hb
    · exact hw'.not_mem (by decide) (by decide) hb
  have hdropped : comment.takeWhile (· ≠ commentMark) = [] := by
    cases comment with
    | nil => rfl
    | cons b comment =>
      rw [Option.some.inj (hcomment (by simp))]
      simp
  rw [content_eq, List.takeWhile_append_of_pos hkept, hdropped, List.append_nil, trim_append hw hw' ht]

/-- A line is its content between blanks, and a comment. -/
theorem exists_content (line : Bytes) :
    Trimmed (content line) ∧ commentMark ∉ content line ∧
      ∃ w w' comment, line = w ++ content line ++ w' ++ comment ∧ Blank w ∧ Blank w' ∧
        (comment ≠ [] → comment.head? = some commentMark) := by
  rw [content_eq]
  obtain ⟨htrim, w, w', heq, hw, hw'⟩ := exists_trim (line.takeWhile (· ≠ commentMark))
  refine ⟨htrim, ?_, w, w', line.dropWhile (· ≠ commentMark), ?_, hw, hw', ?_⟩
  · intro hmem
    refine not_mem_takeWhile line ?_
    rw [heq]
    exact List.mem_append_left _ (List.mem_append_right _ hmem)
  · rw [← heq, List.takeWhile_append_dropWhile]
  · intro hne
    obtain ⟨b, rest, hrest⟩ := List.exists_cons_of_ne_nil hne
    have hnot := List.head?_dropWhile_not (fun b => decide (b ≠ commentMark)) line
    rw [hrest] at hnot ⊢
    simpa using hnot

theorem read_iff_says_content : read line = .ok l ↔ l.Says (content line) := by
  have htrim := (exists_content line).1
  unfold read
  dsimp only
  generalize content line = s at htrim ⊢
  constructor
  · intro h
    split at h
    · rename_i hlast
      split at h
      · rename_i hlabel
        cases h
        obtain ⟨s, rfl⟩ := List.getLast?_eq_some_iff.mp hlast
        rw [List.dropLast_concat] at hlabel ⊢
        obtain ⟨hname, w, w', heq, hw, hw'⟩ := exists_trim s
        generalize trim s = name at hlabel hname heq ⊢
        subst heq
        -- Blanks in front of the label would be in front of the content.
        rw [List.append_assoc, List.append_assoc] at htrim
        obtain rfl := htrim.front_eq_nil hw
        exact .label hlabel hname hw'
      · cases h
    · rename_i hlast
      have hspaced := htrim.spaced_words
      split at h
      · rename_i hwords
        cases h
        rw [hwords] at hspaced
        cases hspaced
        exact .blank
      · rename_i word operands hwords
        rw [hwords] at hspaced
        split at h
        · rename_i i hi
          cases h
          exact .instruction (Instruction.read_eq_ok.mp hi) hspaced hlast
        · cases h
  · intro h
    cases h with
    | blank => rfl
    | @label name w isLabel trimmed gap =>
      have hname : trim (name ++ w) = name := trim_append blank_nil gap trimmed
      rw [if_pos List.getLast?_concat, List.dropLast_concat, hname, if_pos isLabel]
    | @instruction ws i _ ofWords spaced last =>
      rw [if_neg last, spaced.words_eq]
      cases ws with
      | nil => cases ofWords
      | cons word operands => simp only [Instruction.read_eq_ok.mpr ofWords]

theorem read_eq_ok : read line = .ok l ↔ l.Spelled line := by
  rw [read_iff_says_content]
  constructor
  · intro h
    obtain ⟨-, hmark, w, w', comment, heq, hw, hw', hcomment⟩ := exists_content line
    exact ⟨w, content line, w', comment, heq, hw, hw', h, hmark, hcomment⟩
  · rintro ⟨w, t, w', comment, rfl, hw, hw', h, hmark, hcomment⟩
    rwa [content_append hw hw' h.trimmed hmark hcomment]

end Line

/-! ### The canonical text of a line -/

namespace Instruction

theorem text_plain (h : op.hasOperand = false) (arg : UInt64) (label : Bytes) :
    text { op, arg, label } = utf8 op.name := by
  have hlabel : op.takesLabel = false := by
    cases htakes : op.takesLabel with
    | false => rfl
    | true => rw [hasOperand_of_takesLabel htakes] at h; cases h
  simp [text, h, hlabel]

theorem text_number (h : op.hasOperand = true) (hlabel : op.takesLabel = false) (arg : UInt64) (label : Bytes) :
    text { op, arg, label } = utf8 op.name ++ [32] ++ utf8 ("0x" ++ hex 0 arg.toNat) := by
  have hspace : utf8 " 0x" = [32] ++ utf8 "0x" := rfl
  simp [text, h, hlabel, utf8_append, hspace]

theorem text_target (h : op.takesLabel = true) (arg : UInt64) (label : Bytes) :
    text { op, arg, label } = utf8 op.name ++ [32] ++ label := by
  have hspace : utf8 " " = [32] := rfl
  simp [text, h, utf8_append, hspace]

end Instruction

theorem blank_space : Blank [32] := blank_ascii (by decide) (by decide)

theorem Opcode.solid_name (h : op.isDefined = true) : Solid (utf8 op.name) := (names_name h).solid

theorem getLast?_ne_labelMark (h : ∀ b ∈ s, Alphanumeric b) : s.getLast? ≠ some Line.labelMark := by
  intro hlast
  exact absurd (h _ (List.mem_of_getLast? hlast)) (by decide)

namespace Line

/-- The canonical text of a line. -/
def text : Line → Bytes
  | .blank => []
  | .label name => name ++ [labelMark]
  | .instruction i => i.text

/-- The canonical text of a line says what the line says. -/
theorem Says.text (h : l.Says t) : l.Says l.text := by
  cases h with
  | blank => exact .blank
  | label isLabel trimmed gap => simpa [Line.text] using Says.label isLabel trimmed blank_nil
  | instruction ofWords spaced last =>
    rw [Line.text]
    cases ofWords with
    | plain named bare =>
      rw [Instruction.text_plain bare]
      exact .instruction (.plain (Opcode.names_name named.1) bare) (.word (Opcode.solid_name named.1))
        (getLast?_ne_labelMark (Opcode.alphanumeric_name named.1))
    | @number _ _ op arg named takes noLabel literal =>
      have hhex := literal_hex arg.toNat
      rw [Instruction.text_number takes noLabel]
      refine .instruction (.number (Opcode.names_name named.1) takes noLabel hhex)
        (.more (Opcode.solid_name named.1) blank_space (by simp) (.word hhex.solid)) ?_
      rw [List.getLast?_append_of_ne_nil _ hhex.ne_nil]
      exact getLast?_ne_labelMark hhex.alphanumeric
    | target named takes =>
      obtain ⟨w, rfl, -, hlabel⟩ := spaced.pair
      rw [Instruction.text_target takes]
      refine .instruction (.target (Opcode.names_name named.1) takes)
        (.more (Opcode.solid_name named.1) blank_space (by simp) (.word hlabel)) ?_
      rw [List.getLast?_append_of_ne_nil _ hlabel.ne_nil] at last ⊢
      exact last

theorem Says.mem_text (h : l.Says t) (hb : b ∈ l.text) : b ∈ t ∨ Alphanumeric b ∨ b = 32 := by
  cases h with
  | blank => cases hb
  | label isLabel trimmed gap =>
    simp only [Line.text, List.mem_append] at hb ⊢
    tauto
  | instruction ofWords spaced last =>
    rw [Line.text] at hb
    cases ofWords with
    | plain named bare =>
      rw [Instruction.text_plain bare] at hb
      exact Or.inr (Or.inl (Opcode.alphanumeric_name named.1 b hb))
    | @number _ _ op arg named takes noLabel literal =>
      rw [Instruction.text_number takes noLabel, List.mem_append, List.mem_append, List.mem_singleton] at hb
      rcases hb with (hb | hb) | hb
      · exact Or.inr (Or.inl (Opcode.alphanumeric_name named.1 b hb))
      · exact Or.inr (Or.inr hb)
      · exact Or.inr (Or.inl ((literal_hex arg.toNat).alphanumeric b hb))
    | target named takes =>
      obtain ⟨w, rfl, -⟩ := spaced.pair
      rw [Instruction.text_target takes, List.mem_append, List.mem_append, List.mem_singleton] at hb
      rcases hb with (hb | hb) | hb
      · exact Or.inr (Or.inl (Opcode.alphanumeric_name named.1 b hb))
      · exact Or.inr (Or.inr hb)
      · exact Or.inl (List.mem_append_right _ hb)

/-- The canonical text is no longer than the text, unless it has a number. -/
theorem Says.length_text_le (h : l.Says t) : l.text.length ≤ max t.length 25 := by
  cases h with
  | blank => simp [Line.text]
  | label isLabel trimmed gap =>
    simp only [Line.text, List.length_append]
    omega
  | instruction ofWords spaced last =>
    rw [Line.text]
    cases ofWords with
    | plain named bare =>
      have hname := Opcode.length_name_le named.1
      rw [Instruction.text_plain bare]
      omega
    | @number _ _ op arg named takes noLabel literal =>
      have hname := Opcode.length_name_le named.1
      have hhex := length_hex_le arg
      rw [Instruction.text_number takes noLabel, List.length_append, List.length_append, List.length_singleton]
      omega
    | target named takes =>
      -- A space takes no more room than the blanks that it stands for.
      have hname := named.length_name_le
      obtain ⟨w, rfl, hgap, -⟩ := spaced.pair
      have hgap := List.length_pos_iff.mpr hgap
      simp only [Instruction.text_target takes, List.length_append, List.length_singleton]
      omega

/-- The canonical text of a line is read as the line was. -/
theorem Spelled.text (h : l.Spelled line) : l.Spelled l.text := by
  obtain ⟨w, t, w', comment, rfl, hw, hw', hsaid, hmark, hcomment⟩ := h
  refine ⟨[], l.text, [], [], by simp, blank_nil, blank_nil, hsaid.text, ?_, by simp⟩
  intro hmem
  rcases hsaid.mem_text hmem with h | h | h
  · exact hmark h
  · exact absurd h (by decide)
  · cases h

theorem Spelled.lineFeed_not_mem (h : l.Spelled line) (hline : lineFeed ∉ line) : lineFeed ∉ l.text := by
  obtain ⟨w, t, w', comment, rfl, -, -, hsaid, -⟩ := h
  intro hmem
  rcases hsaid.mem_text hmem with h | h | h
  · exact hline (by simp [h])
  · exact absurd h (by decide)
  · cases h

theorem Spelled.length_text_lt (h : l.Spelled line) (hline : line.length < lineLimit) : l.text.length < lineLimit := by
  obtain ⟨w, t, w', comment, rfl, -, -, hsaid, -⟩ := h
  have hle := hsaid.length_text_le
  simp only [List.length_append, lineLimit] at hline ⊢
  omega

end Line

end CacheTiming
