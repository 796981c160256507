import CacheTiming.Proofs.Text.Glyph
import CacheTiming.Text.Blank
import Mathlib.Data.List.TakeWhile

/-! Trimming texts and taking them apart into words.

White space is made of complete characters, so a text can be cut in front of it and behind it. -/

namespace CacheTiming.Text

/-- A text of white space only. -/
def Blank (s : Bytes) : Prop := ∀ g ∈ glyphs s, g.isBlank = true

/-- A text that neither starts nor ends with a blank. -/
structure Trimmed (s : Bytes) : Prop where
  first : ∀ g ∈ (glyphs s).head?, g.isBlank = false
  last : ∀ g ∈ (glyphs s).getLast?, g.isBlank = false

/-- A text that can be a word: it is not empty and has no blank. -/
structure Solid (s : Bytes) : Prop where
  ne_nil : s ≠ []
  unbroken : ∀ g ∈ glyphs s, g.isBlank = false

variable {s t u w w' r : Bytes} {gs ws ws' ts : List Glyph}

/-! ### Putting texts together -/

theorem eq_nil_of_glyphs (h : glyphs s = []) : s = [] := by
  rw [← unglyphs_glyphs s, h]
  rfl

theorem blank_nil : Blank [] := by simp [Blank]

theorem trimmed_nil : Trimmed [] := ⟨by simp, by simp⟩

theorem Solid.glyphs_ne_nil (h : Solid s) : glyphs s ≠ [] := fun hnil => h.ne_nil (eq_nil_of_glyphs hnil)

theorem Solid.trimmed (h : Solid s) : Trimmed s where
  first g hg := h.unbroken g (List.mem_of_mem_head? hg)
  last g hg := h.unbroken g (List.mem_of_getLast? hg)

theorem Glyph.exists_char {g : Glyph} (h : g.isBlank = true) : ∃ c, g = .char c := by
  cases g with
  | char c => exact ⟨c, rfl⟩
  | stray b => cases h

theorem blank_ascii {b : UInt8} (h : b.toNat < 0x80) (hb : isBlank (Char.ofNat b.toNat) = true) : Blank [b] := by
  rw [Blank, glyphs_ascii h, glyphs_nil, List.forall_mem_singleton]
  exact hb

theorem Blank.not_mem {b : UInt8} (h : Blank w) (hlt : b.toNat < 0x80) (hb : isBlank (Char.ofNat b.toNat) = false) :
    b ∉ w := by
  intro hmem
  have hblank := h _ ((mem_iff_char_mem hlt).mp hmem)
  rw [Glyph.isBlank, hb] at hblank
  cases hblank

theorem Blank.starts (h : Blank w) : Starts w := by
  cases hw : glyphs w with
  | nil =>
    rw [eq_nil_of_glyphs hw]
    intro b hb
    cases hb
  | cons g gs =>
    obtain ⟨c, rfl⟩ := Glyph.exists_char (h g (by simp [hw]))
    have hbytes : w = String.utf8EncodeChar c ++ unglyphs gs := by
      rw [← unglyphs_glyphs w, hw]
      rfl
    rw [hbytes]
    exact starts_encode c _

theorem Blank.read_append (h : Blank w) (s : Bytes) : glyphs (w ++ s) = glyphs w ++ glyphs s :=
  glyphs_append_of_chars fun g hg => Glyph.exists_char (h g hg)

theorem Blank.append (hw : Blank w) (hw' : Blank w') : Blank (w ++ w') := by
  rw [Blank, hw.read_append, List.forall_mem_append]
  exact ⟨hw, hw'⟩

/-- The text between two others is read alone if it is white space. -/
theorem Blank.read_between (h : Blank w) (hne : w ≠ []) (s t : Bytes) :
    glyphs (s ++ w ++ t) = glyphs s ++ glyphs w ++ glyphs t := by
  have hstarts : Starts (w ++ t) := by
    obtain ⟨b, w, rfl⟩ := List.exists_cons_of_ne_nil hne
    exact h.starts
  rw [List.append_assoc, glyphs_append s hstarts, h.read_append, List.append_assoc]

/-- The bytes of ASCII letters and digits, and of `_`. -/
def Alphanumeric (b : UInt8) : Prop :=
  48 ≤ b.toNat ∧ b.toNat ≤ 57 ∨ 65 ≤ b.toNat ∧ b.toNat ≤ 90 ∨ b.toNat = 95 ∨ 97 ≤ b.toNat ∧ b.toNat ≤ 122

instance (b : UInt8) : Decidable (Alphanumeric b) := inferInstanceAs (Decidable (_ ∨ _))

theorem solid_of_alphanumeric (hne : s ≠ []) (h : ∀ b ∈ s, Alphanumeric b) : Solid s := by
  refine ⟨hne, ?_⟩
  clear hne
  induction s with
  | nil => simp
  | cons b s ih =>
    obtain ⟨hb, hs⟩ := List.forall_mem_cons.mp h
    unfold Alphanumeric at hb
    rw [glyphs_ascii (by omega), List.forall_mem_cons]
    refine ⟨?_, ih hs⟩
    have htoNat : (Char.ofNat b.toNat).toNat = b.toNat := toNat_ofNat (Or.inl (by omega))
    simp only [Glyph.isBlank, isBlank, htoNat, Bool.or_eq_false_iff, Bool.and_eq_false_iff, decide_eq_false_iff_not,
      beq_eq_false_iff_ne]
    omega

/-! ### Trimming -/

theorem dropWhile_eq_self {p : Glyph → Bool} (h : ∀ g ∈ gs.head?, p g = false) : gs.dropWhile p = gs := by
  cases gs with
  | nil => rfl
  | cons g gs => simp [h g rfl]

theorem trimGlyphs_append (hws : ∀ g ∈ ws, g.isBlank = true) (hws' : ∀ g ∈ ws', g.isBlank = true)
    (hfirst : ∀ g ∈ ts.head?, g.isBlank = false) (hlast : ∀ g ∈ ts.getLast?, g.isBlank = false) :
    trimGlyphs (ws ++ ts ++ ws') = ts := by
  have hfront : (ws ++ ts ++ ws').dropWhile Glyph.isBlank = if ts = [] then [] else ts ++ ws' := by
    rw [List.append_assoc, List.dropWhile_append_of_pos hws]
    split
    · rename_i hts
      rw [hts, List.nil_append]
      have hall : (ws' ++ []).dropWhile Glyph.isBlank = [].dropWhile Glyph.isBlank := List.dropWhile_append_of_pos hws'
      rwa [List.append_nil] at hall
    · rename_i hts
      exact dropWhile_eq_self (by rwa [List.head?_append_of_ne_nil _ hts])
  rw [trimGlyphs, hfront]
  split
  · rename_i hts
    rw [hts]
    rfl
  · rw [List.reverse_append, List.dropWhile_append_of_pos (by simpa using hws'),
      dropWhile_eq_self (by simpa using hlast), List.reverse_reverse]

theorem exists_trimGlyphs (gs : List Glyph) :
    ∃ ws ws', gs = ws ++ trimGlyphs gs ++ ws' ∧ (∀ g ∈ ws, g.isBlank = true) ∧ (∀ g ∈ ws', g.isBlank = true) ∧
      (∀ g ∈ (trimGlyphs gs).head?, g.isBlank = false) ∧ ∀ g ∈ (trimGlyphs gs).getLast?, g.isBlank = false := by
  -- What follows the first blanks, and what is left of it without the last ones.
  let rest := gs.dropWhile Glyph.isBlank
  have hgs : gs = gs.takeWhile Glyph.isBlank ++ rest := List.takeWhile_append_dropWhile.symm
  have hrest : rest = trimGlyphs gs ++ (rest.reverse.takeWhile Glyph.isBlank).reverse := by
    rw [trimGlyphs, ← List.reverse_append, List.takeWhile_append_dropWhile, List.reverse_reverse]
  refine ⟨gs.takeWhile Glyph.isBlank, (rest.reverse.takeWhile Glyph.isBlank).reverse, ?_, ?_, ?_, ?_, ?_⟩
  · rw [List.append_assoc, ← hrest, ← hgs]
  · exact fun g hg => List.mem_takeWhile_imp hg
  · exact fun g hg => List.mem_takeWhile_imp (List.mem_reverse.mp hg)
  · intro g hg
    have hhead : rest.head? = some g := by
      rw [hrest, List.head?_append, hg]
      rfl
    have hnot := List.head?_dropWhile_not Glyph.isBlank gs
    rw [hhead] at hnot
    simpa using hnot
  · intro g hg
    rw [trimGlyphs, List.getLast?_reverse] at hg
    have hnot := List.head?_dropWhile_not Glyph.isBlank rest.reverse
    rw [hg] at hnot
    simpa using hnot

theorem trim_append (hw : Blank w) (hw' : Blank w') (ht : Trimmed t) : trim (w ++ t ++ w') = t := by
  rw [trim, List.append_assoc, hw.read_append, glyphs_append t hw'.starts, ← List.append_assoc,
    trimGlyphs_append hw hw' ht.first ht.last, unglyphs_glyphs]

theorem Trimmed.trim_eq (h : Trimmed s) : trim s = s := by
  simpa using trim_append blank_nil blank_nil h

/-- What is trimmed off are blanks. -/
theorem exists_trim (s : Bytes) : Trimmed (trim s) ∧ ∃ w w', s = w ++ trim s ++ w' ∧ Blank w ∧ Blank w' := by
  obtain ⟨ws, ws', hgs, hws, hws', hfirst, hlast⟩ := exists_trimGlyphs (glyphs s)
  have hlegible : Legible (ws ++ trimGlyphs (glyphs s) ++ ws') := hgs ▸ legible_glyphs s
  have hleft : glyphs (unglyphs ws) = ws := hlegible.left.left
  have hmiddle : glyphs (trim s) = trimGlyphs (glyphs s) := hlegible.left.right
  have hright : glyphs (unglyphs ws') = ws' := hlegible.right
  refine ⟨⟨hmiddle ▸ hfirst, hmiddle ▸ hlast⟩, unglyphs ws, unglyphs ws', ?_, ?_, ?_⟩
  · rw [trim, ← unglyphs_append, ← unglyphs_append, ← hgs, unglyphs_glyphs]
  · rwa [Blank, hleft]
  · rwa [Blank, hright]

theorem trim_append_blank (hw : Blank w) : trim (s ++ w) = trim s := by
  obtain ⟨htrim, a, b, heq, ha, hb⟩ := exists_trim s
  have happend := trim_append ha (hb.append hw) htrim
  rwa [← List.append_assoc, ← heq] at happend

/-! ### Words -/

/-- The maximal runs of glyphs that hold no blank. -/
def wordGlyphs (gs : List Glyph) : List (List Glyph) := (gs.splitOnP Glyph.isBlank).filter (!·.isEmpty)

theorem words_eq (s : Bytes) : words s = (wordGlyphs (glyphs s)).map unglyphs := rfl

theorem wordGlyphs_blank_append (h : ∀ g ∈ ws, g.isBlank = true) : wordGlyphs (ws ++ gs) = wordGlyphs gs := by
  induction ws with
  | nil => rfl
  | cons g ws ih =>
    rw [List.forall_mem_cons] at h
    rw [List.cons_append, wordGlyphs, List.splitOnP_cons_eq_if_modifyHead, if_pos h.1]
    exact ih h.2

/-- A run ends at a blank or at the end. -/
theorem wordGlyphs_solid_append (hne : ts ≠ []) (h : ∀ g ∈ ts, g.isBlank = false)
    (hgs : ∀ g ∈ gs.head?, g.isBlank = true) : wordGlyphs (ts ++ gs) = ts :: wordGlyphs gs := by
  cases gs with
  | nil =>
    rw [List.append_nil, wordGlyphs, List.splitOnP_eq_singleton h]
    simp [hne, wordGlyphs]
  | cons g gs =>
    have hg := hgs g rfl
    rw [wordGlyphs, List.splitOnP_append_cons_of_forall_mem h g hg, wordGlyphs, List.splitOnP_cons_eq_if_modifyHead, if_pos hg]
    simp [hne]

theorem words_blank_append (hw : Blank w) : words (w ++ s) = words s := by
  rw [words_eq, hw.read_append, wordGlyphs_blank_append hw, words_eq]

theorem Solid.words_append (ht : Solid t) (hw : Blank w) (hne : w ≠ []) : words (t ++ w ++ s) = t :: words s := by
  have hfirst : ∀ g ∈ (glyphs w ++ glyphs s).head?, g.isBlank = true := by
    rw [List.head?_append_of_ne_nil _ fun hnil => hne (eq_nil_of_glyphs hnil)]
    exact fun g hg => hw g (List.mem_of_mem_head? hg)
  rw [words_eq, hw.read_between hne, List.append_assoc,
    wordGlyphs_solid_append ht.glyphs_ne_nil ht.unbroken hfirst, wordGlyphs_blank_append hw, List.map_cons,
    unglyphs_glyphs, words_eq]

theorem Solid.words_eq_singleton (h : Solid s) : words s = [s] := by
  have hread : wordGlyphs (glyphs s ++ []) = glyphs s :: wordGlyphs [] :=
    wordGlyphs_solid_append h.glyphs_ne_nil h.unbroken (by simp)
  rw [List.append_nil] at hread
  rw [words_eq, hread]
  simp [wordGlyphs]

/-- A text is blank, or it has a first word. -/
theorem words_cases (s : Bytes) :
    Blank s ∧ words s = [] ∨
      ∃ w t r, s = w ++ t ++ r ∧ Blank w ∧ Solid t ∧ words s = t :: words r ∧
        ∀ g ∈ (glyphs r).head?, g.isBlank = true := by
  let ws := (glyphs s).takeWhile Glyph.isBlank
  let rest := (glyphs s).dropWhile Glyph.isBlank
  have hws : ∀ g ∈ ws, g.isBlank = true := fun g hg => List.mem_takeWhile_imp hg
  have hgs : glyphs s = ws ++ rest := List.takeWhile_append_dropWhile.symm
  have hwords : wordGlyphs (glyphs s) = wordGlyphs rest := by rw [hgs, wordGlyphs_blank_append hws]
  by_cases hne : rest = []
  · rw [hne, List.append_nil] at hgs
    refine Or.inl ⟨by rwa [Blank, hgs], ?_⟩
    rw [words_eq, hwords, hne]
    rfl
  · let ts := rest.takeWhile (!·.isBlank)
    let rs := rest.dropWhile (!·.isBlank)
    have hts : ∀ g ∈ ts, g.isBlank = false := fun g hg => by simpa using List.mem_takeWhile_imp hg
    have hrest : rest = ts ++ rs := List.takeWhile_append_dropWhile.symm
    have hrs : ∀ g ∈ rs.head?, g.isBlank = true := by
      intro g hg
      have hnot := List.head?_dropWhile_not (fun g : Glyph => !g.isBlank) rest
      rw [hg] at hnot
      simpa using hnot
    have htne : ts ≠ [] := by
      intro hnil
      obtain ⟨g, gs, hcons⟩ := List.exists_cons_of_ne_nil hne
      have hblank := hrs g (by rw [hrest, hnil, List.nil_append] at hcons; simp [hcons])
      have hnot := List.head?_dropWhile_not Glyph.isBlank (glyphs s)
      rw [show (glyphs s).dropWhile Glyph.isBlank = g :: gs from hcons] at hnot
      simp [hblank] at hnot
    have hlegible : Legible (ws ++ (ts ++ rs)) := hrest ▸ hgs ▸ legible_glyphs s
    have hleft : glyphs (unglyphs ws) = ws := hlegible.left
    have hmiddle : glyphs (unglyphs ts) = ts := hlegible.right.left
    have hright : glyphs (unglyphs rs) = rs := hlegible.right.right
    refine Or.inr ⟨unglyphs ws, unglyphs ts, unglyphs rs, ?_, ?_, ⟨?_, ?_⟩, ?_, ?_⟩
    · rw [← unglyphs_append, ← unglyphs_append, List.append_assoc, ← hrest, ← hgs, unglyphs_glyphs]
    · rwa [Blank, hleft]
    · intro hnil
      rw [hnil] at hmiddle
      exact htne hmiddle.symm
    · rwa [hmiddle]
    · rw [words_eq, hwords, hrest, wordGlyphs_solid_append htne hts hrs, List.map_cons, words_eq, hright]
    · rwa [hright]

/-! ### Spaced words -/

/-- Words with blanks between them. -/
inductive Spaced : List Bytes → Bytes → Prop where
  | nil : Spaced [] []
  | word {t : Bytes} (solid : Solid t) : Spaced [t] t
  | more {t u w s : Bytes} {us : List Bytes} (solid : Solid t) (gap : Blank w) (ne_nil : w ≠ [])
      (rest : Spaced (u :: us) s) : Spaced (t :: u :: us) (t ++ w ++ s)

theorem Spaced.pair (h : Spaced [t, u] s) : ∃ w, s = t ++ w ++ u ∧ w ≠ [] ∧ Solid u := by
  cases h with
  | more _ _ ne_nil rest =>
    cases rest with
    | word solid => exact ⟨_, rfl, ne_nil, solid⟩

theorem Spaced.words_eq {ts : List Bytes} (h : Spaced ts s) : words s = ts := by
  induction h with
  | nil => rfl
  | word solid => exact solid.words_eq_singleton
  | more solid gap ne_nil _ ih => rw [solid.words_append gap ne_nil, ih]

theorem Trimmed.eq_nil (h : Trimmed s) (hs : Blank s) : s = [] := by
  have htrim := trim_append hs blank_nil trimmed_nil
  rwa [List.append_nil, List.append_nil, h.trim_eq] at htrim

theorem Trimmed.front_eq_nil (h : Trimmed (w ++ s)) (hw : Blank w) : w = [] := by
  cases hgs : glyphs w with
  | nil => exact eq_nil_of_glyphs hgs
  | cons g gs =>
    have hfirst := h.first g (by simp [hw.read_append, hgs])
    rw [hw g (by simp [hgs])] at hfirst
    cases hfirst

theorem Trimmed.back_eq_nil (h : Trimmed (s ++ w)) (hw : Blank w) : w = [] := by
  by_cases hgs : glyphs w = []
  · exact eq_nil_of_glyphs hgs
  · have hmem := List.getLast_mem hgs
    have hlast := h.last ((glyphs w).getLast hgs) <| by
      rw [glyphs_append s hw.starts, List.getLast?_append_of_ne_nil _ hgs, List.getLast?_eq_some_getLast hgs]
      rfl
    rw [hw _ hmem] at hlast
    cases hlast

/-- A text without blanks at its ends is its words with blanks between them. -/
theorem Trimmed.spaced_words (h : Trimmed s) : Spaced (words s) s := by
  induction hts : words s generalizing s with
  | nil =>
    rcases words_cases s with ⟨hs, -⟩ | ⟨_, _, _, -, -, -, hwords, -⟩
    · rw [h.eq_nil hs]
      exact .nil
    · rw [hwords] at hts
      cases hts
  | cons t ts ih =>
    rcases words_cases s with ⟨-, hwords⟩ | ⟨w, t', r, rfl, hw, ht, hwords, hr⟩
    · rw [hwords] at hts
      cases hts
    rw [hwords] at hts
    injection hts with htt hts
    subst htt
    rw [List.append_assoc] at h
    obtain rfl := h.front_eq_nil hw
    rw [List.nil_append] at h ⊢
    -- The rest starts with the gap; behind it stand the other words.
    obtain ⟨htrim, a, b, hrest, ha, hb⟩ := exists_trim r
    rw [hrest, ← List.append_assoc] at h
    obtain rfl := h.back_eq_nil hb
    rw [List.append_nil] at h hrest
    have hmore : words (trim r) = ts := by rw [← hts, ← words_blank_append ha, ← hrest]
    cases ts with
    | nil =>
      rcases words_cases r with ⟨hblank, -⟩ | ⟨_, _, _, -, -, -, hwords', -⟩
      · rw [← hrest] at h
        rw [h.back_eq_nil hblank, List.append_nil]
        exact .word ht
      · rw [hwords'] at hts
        cases hts
    | cons u us =>
      have hgap : a ≠ [] := by
        rintro rfl
        rw [List.nil_append] at hrest
        obtain ⟨g, hg⟩ : ∃ g, (glyphs r).head? = some g := by
          cases hgs : glyphs r with
          | nil =>
            rw [words_eq, hgs] at hts
            cases hts
          | cons g gs => exact ⟨g, rfl⟩
        have hfirst := htrim.first g (by rwa [← hrest])
        rw [hr g hg] at hfirst
        cases hfirst
      rw [hrest, ← List.append_assoc]
      exact .more ht ha hgap (ih htrim hmore)

theorem Spaced.trimmed {ts : List Bytes} (h : Spaced ts s) : Trimmed s := by
  induction h with
  | nil => exact trimmed_nil
  | word solid => exact solid.trimmed
  | @more t u w s us solid gap ne_nil rest ih =>
    have hne : glyphs s ≠ [] := by
      intro hnil
      have hwords := rest.words_eq
      rw [eq_nil_of_glyphs hnil] at hwords
      cases hwords
    constructor
    · intro g hg
      rw [gap.read_between ne_nil, List.append_assoc, List.head?_append_of_ne_nil _ solid.glyphs_ne_nil] at hg
      exact solid.trimmed.first g hg
    · intro g hg
      rw [gap.read_between ne_nil, List.getLast?_append_of_ne_nil _ hne] at hg
      exact ih.last g hg

end CacheTiming.Text
