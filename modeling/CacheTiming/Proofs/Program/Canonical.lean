import CacheTiming.Proofs.Program.Parse

/-! The canonical text of a program that was read.

The canonical lines of a program say its instructions in their order, and in front of each the labels of its
place. So they say the same program as the lines that it was read from, and their texts are read again. -/

namespace CacheTiming

open Text

variable {name : String} {text : Bytes} {l : Line} {ls ls' : List Line} {i j : Instruction} {labels : Labels}

/-! ### Labels and their places -/

/-- An instruction without the place that its label stands for. -/
def Instruction.unresolved (i : Instruction) : Instruction := if i.op.takesLabel then { i with arg := 0 } else i

theorem Instruction.text_unresolved (i : Instruction) : i.unresolved.text = i.text := by
  unfold unresolved
  split
  · rename_i h
    rw [text, text, if_pos h, if_pos h]
  · rfl

namespace Program

variable {p q : Program}

theorem unresolved_of_resolve {ws : List Bytes} (hj : j.OfWords ws) (h : resolve labels j = .ok i) :
    i.unresolved = j := by
  unfold resolve at h
  split at h
  · rename_i hlabel
    split at h
    · cases h
      cases hj with
      | target named takes => simp [Instruction.unresolved, takes]
      | number named takes noLabel =>
        rw [noLabel] at hlabel
        cases hlabel
      | plain named bare =>
        rw [Instruction.hasOperand_of_takesLabel hlabel] at bare
        cases bare
    · cases h
  · rename_i hlabel
    cases h
    exact if_neg hlabel

/-! ### Canonical lines -/

/-- The labels of a place, each on a line of its own. -/
def labelLines (p : Program) (pc : Nat) : List Line :=
  (p.labels.toList.filter fun x => x.2.toNat = pc).map fun x => .label x.1

/-- The canonical lines of code that starts at a place. -/
def linesFrom (p : Program) (pc : Nat) : List Instruction → List Line
  | [] => p.labelLines pc
  | i :: code => p.labelLines pc ++ .instruction i.unresolved :: p.linesFrom (pc + 1) code

/-- The canonical lines of a program. -/
def canonicalLines (p : Program) : List Line := p.linesFrom 0 p.code

theorem labelText_eq (p : Program) (pc : Nat) :
    p.labelText pc = (p.labelLines pc).flatMap fun l => l.text ++ [lineFeed] := by
  unfold labelText labelLines
  rw [List.flatMap_map]
  simp only [Line.text, List.append_assoc]
  rfl

/-- The canonical text is the text of the canonical lines. -/
theorem text_eq (p : Program) : p.text = (p.canonicalLines.map Line.text).flatMap (· ++ [lineFeed]) := by
  have hfrom : ∀ (code : List Instruction) (pc : Nat),
      ((code.zipIdx pc).flatMap fun x => p.labelText x.2 ++ x.1.text ++ [lineFeed]) ++ p.labelText (pc + code.length) =
        (p.linesFrom pc code).flatMap fun l => l.text ++ [lineFeed] := by
    intro code
    induction code with
    | nil =>
      intro pc
      exact p.labelText_eq pc
    | cons i code ih =>
      intro pc
      have hrest := ih (pc + 1)
      rw [Nat.add_right_comm, Nat.add_assoc] at hrest
      rw [List.zipIdx_cons, List.flatMap_cons, linesFrom, List.flatMap_append, List.flatMap_cons, List.length_cons,
        ← p.labelText_eq pc, ← hrest]
      simp only [Line.text, Instruction.text_unresolved, List.append_assoc]
  have htext := hfrom p.code 0
  rw [Nat.zero_add] at htext
  rw [List.flatMap_map]
  exact htext

theorem instructions_labelLines (p : Program) (pc : Nat) : Line.instructions (p.labelLines pc) = [] := by
  unfold labelLines
  induction p.labels.toList.filter fun x => x.2.toNat = pc with
  | nil => rfl
  | cons x xs ih => exact ih

theorem instructions_linesFrom (p : Program) (pc : Nat) (code : List Instruction) :
    Line.instructions (p.linesFrom pc code) = code.map Instruction.unresolved := by
  induction code generalizing pc with
  | nil => exact p.instructions_labelLines pc
  | cons i code ih =>
    rw [linesFrom, Line.instructions_append, instructions_labelLines, List.nil_append, Line.instructions, ih,
      List.map_cons]

theorem places_labelLines (p : Program) (pc : Nat) :
    Line.places pc (p.labelLines pc) = p.labels.toList.filter fun x => x.2.toNat = pc := by
  have hlabels : ∀ xs : List (Bytes × UInt64), (∀ x ∈ xs, x.2.toNat = pc) →
      Line.places pc (xs.map fun x => .label x.1) = xs := by
    intro xs hxs
    induction xs with
    | nil => rfl
    | cons x xs ih =>
      obtain ⟨hx, hxs⟩ := List.forall_mem_cons.mp hxs
      rw [List.map_cons, Line.places, ih hxs, ← hx, Nat.toUInt64_eq, UInt64.ofNat_toNat]
  exact hlabels _ fun x hx => by simpa using List.of_mem_filter hx

/-- The canonical lines have the labels of all their places. -/
theorem places_linesFrom_perm (p : Program) (pc : Nat) (code : List Instruction) :
    (Line.places pc (p.linesFrom pc code)).Perm
      (p.labels.toList.filter fun x => pc ≤ x.2.toNat ∧ x.2.toNat ≤ pc + code.length) := by
  induction code generalizing pc with
  | nil =>
    rw [linesFrom, places_labelLines]
    refine .of_eq (List.filter_congr fun x _ => ?_)
    simp [Nat.le_antisymm_iff, and_comm]
  | cons i code ih =>
    rw [linesFrom, Line.places_append, places_labelLines, instructions_labelLines, Line.places]
    refine ((ih (pc + 1)).append_left _).trans ?_
    -- The labels of the first place and the labels of the others.
    have hsplit := List.filter_append_perm (fun x => decide (x.2.toNat = pc))
      (p.labels.toList.filter fun x => pc ≤ x.2.toNat ∧ x.2.toNat ≤ pc + (i :: code).length)
    rw [List.filter_filter, List.filter_filter] at hsplit
    refine .trans (.of_eq (congrArg₂ _ ?_ ?_)) hsplit
    · refine List.filter_congr fun x _ => ?_
      rw [List.length_cons, ← Bool.decide_and, decide_eq_decide]
      omega
    · refine List.filter_congr fun x _ => ?_
      rw [List.length_cons, ← decide_not, ← Bool.decide_and, decide_eq_decide]
      omega

theorem mem_linesFrom {pc : Nat} {code : List Instruction} (h : l ∈ p.linesFrom pc code) :
    (∃ x ∈ p.labels.toList, l = .label x.1) ∨ ∃ i ∈ code, l = .instruction i.unresolved := by
  have hlabel : ∀ pc, l ∈ p.labelLines pc → ∃ x ∈ p.labels.toList, l = .label x.1 := by
    intro pc hl
    obtain ⟨x, hx, rfl⟩ := List.mem_map.mp hl
    exact ⟨x, List.mem_of_mem_filter hx, rfl⟩
  induction code generalizing pc with
  | nil => exact Or.inl (hlabel pc h)
  | cons i code ih =>
    rw [linesFrom, List.mem_append, List.mem_cons] at h
    rcases h with h | rfl | h
    · exact Or.inl (hlabel pc h)
    · exact Or.inr ⟨i, List.mem_cons_self, rfl⟩
    · rcases ih h with h | ⟨j, hj, rfl⟩
      · exact Or.inl h
      · exact Or.inr ⟨j, List.mem_cons_of_mem i hj, rfl⟩

/-! ### Programs that were read -/

namespace OfLines

theorem unresolved_code (h : p.OfLines ls) (hls : ∀ l ∈ ls, ∃ t, l.Says t) :
    p.code.map Instruction.unresolved = Line.instructions ls := by
  have hwords : ∀ j ∈ Line.instructions ls, ∃ ws, j.OfWords ws := by
    intro j hj
    obtain ⟨t, ht⟩ := hls _ (Line.mem_instructions.mp hj)
    cases ht with
    | instruction ofWords => exact ⟨_, ofWords⟩
  have hcode := h.code
  generalize Line.instructions ls = js, p.code = code at hcode hwords
  induction hcode with
  | nil => rfl
  | cons hi _ ih =>
    obtain ⟨⟨ws, hj⟩, hjs⟩ := List.forall_mem_cons.mp hwords
    rw [List.map_cons, unresolved_of_resolve hj hi, ih hjs]

/-- The canonical lines of a program say what the lines say that it was read from. -/
theorem rearranged (h : p.OfLines ls) (hls : ∀ l ∈ ls, ∃ t, l.Says t) : Line.Rearranged ls p.canonicalLines := by
  have hcode := h.unresolved_code hls
  constructor
  · rw [canonicalLines, instructions_linesFrom, hcode]
  · have hlength : p.code.length = (Line.instructions ls).length := by rw [← hcode, List.length_map]
    have hall : (p.labels.toList.filter fun x => 0 ≤ x.2.toNat ∧ x.2.toNat ≤ 0 + p.code.length) = p.labels.toList := by
      refine List.filter_eq_self.mpr fun x hx => ?_
      have hle := Line.toNat_le_of_mem_places (h.labels.mem_iff.mp hx)
      simpa [hlength] using hle
    have hperm := p.places_linesFrom_perm 0 p.code
    rw [hall] at hperm
    exact h.labels.symm.trans hperm.symm

theorem mem_of_mem_canonicalLines (h : p.OfLines ls) (hls : ∀ l ∈ ls, ∃ t, l.Says t) (hl : l ∈ p.canonicalLines) :
    l ∈ ls := by
  rcases mem_linesFrom hl with ⟨x, hx, rfl⟩ | ⟨i, hi, rfl⟩
  · exact Line.label_mem_of_mem_places (h.labels.mem_iff.mp hx)
  · rw [← Line.mem_instructions, ← h.unresolved_code hls]
    exact List.mem_map_of_mem hi

end OfLines

/-- The canonical text of a program that was read is read as the program. -/
theorem parse_text (h : parse name text = .ok p) : parse name p.text = .ok p := by
  obtain ⟨hname, ls, hls, hp⟩ := parse_eq_ok.mp h
  have haccepted : ∀ l ∈ ls, ∃ line ∈ lines text, l.Accepted line := fun l => Line.exists_accepted hls
  have hsaid : ∀ l ∈ ls, ∃ t, l.Says t := by
    intro l hl
    obtain ⟨line, -, ⟨_, t, _, _, -, -, -, ht, -⟩, -⟩ := haccepted l hl
    exact ⟨t, ht⟩
  have hlines : lines p.text = p.canonicalLines.map Line.text := by
    rw [text_eq]
    refine lines_flatMap fun t ht => ?_
    obtain ⟨l, hl, rfl⟩ := List.mem_map.mp ht
    obtain ⟨line, hline, haccepted⟩ := haccepted l (hp.mem_of_mem_canonicalLines hsaid hl)
    exact haccepted.spelled.lineFeed_not_mem (not_mem_of_mem_lines hline)
  refine parse_eq_ok.mpr ⟨hname, p.canonicalLines, ?_, hp.of_rearranged (hp.rearranged hsaid)⟩
  rw [hlines, List.forall₂_map_right_iff, List.forall₂_same]
  intro l hl
  obtain ⟨line, -, haccepted⟩ := haccepted l (hp.mem_of_mem_canonicalLines hsaid hl)
  exact ⟨haccepted.spelled.text, haccepted.spelled.length_text_lt haccepted.short⟩

theorem parse_rename (h : parse name text = .ok p) (name' : String) : parse name' text = .ok { p with name := name' } := by
  obtain ⟨-, ls, hls, hp⟩ := parse_eq_ok.mp h
  exact parse_eq_ok.mpr ⟨rfl, ls, hls, hp.code, hp.labels⟩

theorem text_eq_of_eq (hcode : p.code = q.code) (hlabels : p.labels = q.labels) : p.text = q.text := by
  simp only [text, labelText, hcode, hlabels]

theorem text_eq_iff {name' : String} {text' : Bytes} (hp : parse name text = .ok p) (hq : parse name' text' = .ok q) :
    p.text = q.text ↔ p.code = q.code ∧ p.labels = q.labels := by
  constructor
  · intro h
    have hread := parse_rename (parse_text hp) name'
    rw [h, parse_text hq] at hread
    cases hread
    exact ⟨rfl, rfl⟩
  · rintro ⟨hcode, hlabels⟩
    exact text_eq_of_eq hcode hlabels

/-- Texts with rearranged lines are read as programs with the same code and labels. -/
theorem parse_of_rearranged {name' : String} {text' : Bytes} (h : parse name text = .ok p)
    (hls : List.Forall₂ Line.Accepted ls (lines text)) (hls' : List.Forall₂ Line.Accepted ls' (lines text'))
    (hre : Line.Rearranged ls ls') : parse name' text' = .ok { p with name := name' } := by
  obtain ⟨-, ls₀, hls₀, hp⟩ := parse_eq_ok.mp h
  obtain rfl := List.left_unique_forall₂' Line.accepted_leftUnique hls₀ hls
  have hp' := hp.of_rearranged hre
  exact parse_eq_ok.mpr ⟨rfl, ls', hls', hp'.code, hp'.labels⟩

/-- The canonical text of a program that was read is read as the same program. Two such programs have one canonical
    text just if they have the same code and the same labels. Neither the text nor the fingerprint depends on how
    the lines are spelled and on the order of labels at one place. -/
theorem canonical_text_round_trip (h : parse name text = .ok p) :
    parse name p.text = .ok p ∧
    (∀ name' text' q, parse name' text' = .ok q → (p.text = q.text ↔ p.code = q.code ∧ p.labels = q.labels)) ∧
    ∀ name' text' ls ls', List.Forall₂ Line.Accepted ls (lines text) → List.Forall₂ Line.Accepted ls' (lines text') →
      Line.Rearranged ls ls' →
      ∃ q, parse name' text' = .ok q ∧ q.code = p.code ∧ q.labels = p.labels ∧ q.text = p.text ∧
        q.fingerprint = p.fingerprint := by
  refine ⟨parse_text h, fun name' text' q hq => text_eq_iff h hq, ?_⟩
  intro name' text' ls ls' hls hls' hre
  refine ⟨{ p with name := name' }, parse_of_rearranged h hls hls' hre, rfl, rfl, rfl, rfl⟩

theorem spellings_with_one_fingerprint :
    ∃ p, parse "layout" (utf8 "b:\n a : ; two labels\ntouch 012\n  Branch\ta") = .ok p ∧ parse "layout" p.text = .ok p ∧
      ∃ q, parse "plain" (utf8 "a:\nb:\n\nTOUCH 0xA\nBRANCH a\n") = .ok q ∧ q.fingerprint = p.fingerprint := by
  have accepted : ∀ {l : Line} {line : Bytes}, Line.read line = .ok l → line.length < lineLimit → l.Accepted line :=
    fun hread hshort => ⟨Line.read_eq_ok.mp hread, hshort⟩
  have hlayout : lines (utf8 "b:\n a : ; two labels\ntouch 012\n  Branch\ta") =
      [utf8 "b:", utf8 " a : ; two labels", utf8 "touch 012", utf8 "  Branch\ta"] := by decide +kernel
  have hplain : lines (utf8 "a:\nb:\n\nTOUCH 0xA\nBRANCH a\n") =
      [utf8 "a:", utf8 "b:", [], utf8 "TOUCH 0xA", utf8 "BRANCH a"] := by decide +kernel
  have hok : (parse "layout" (utf8 "b:\n a : ; two labels\ntouch 012\n  Branch\ta")).isOk = true := by decide +kernel
  cases hp : parse "layout" (utf8 "b:\n a : ; two labels\ntouch 012\n  Branch\ta") with
  | error e =>
    rw [hp] at hok
    cases hok
  | ok p =>
    obtain ⟨hread, -, hsame⟩ := canonical_text_round_trip hp
    obtain ⟨q, hq, -, -, -, hfingerprint⟩ := hsame "plain" (utf8 "a:\nb:\n\nTOUCH 0xA\nBRANCH a\n")
      [.label [98], .label [97], .instruction { op := .touch, arg := 10 },
        .instruction { op := .branch, label := [97] }]
      [.label [97], .label [98], .blank, .instruction { op := .touch, arg := 10 },
        .instruction { op := .branch, label := [97] }]
      (by
        rw [hlayout]
        exact .cons (accepted rfl (by decide)) <| .cons (accepted rfl (by decide)) <|
          .cons (accepted rfl (by decide)) <| .cons (accepted rfl (by decide)) .nil)
      (by
        rw [hplain]
        exact .cons (accepted rfl (by decide)) <| .cons (accepted rfl (by decide)) <|
          .cons (accepted rfl (by decide)) <| .cons (accepted rfl (by decide)) <|
          .cons (accepted rfl (by decide)) .nil)
      ⟨rfl, .swap _ _ _⟩
    exact ⟨p, rfl, hread, q, hq, hfingerprint⟩

end Program

end CacheTiming
