import CacheTiming.Text.Glyph
import Mathlib.Data.List.Basic

/-! Reading glyphs.

A character is read where its encoding starts, and nothing else is read there. So a text is the encoding of
its glyphs, and its glyphs can be cut between any two of them: each part is read as before. Two texts that
are put together are read one after the other, unless the second one starts in the middle of a
character. -/

namespace CacheTiming.Text

variable {b : UInt8} {c : Char} {k least n : Nat} {s t rest : Bytes} {gs hs : List Glyph}

/-! ### Single characters -/

theorem continuation?_eq_some {x : Nat} : continuation? b = some x ↔ x < 64 ∧ b.toNat = 0x80 + x := by
  simp only [continuation?, UInt8.le_iff_toNat_le, UInt8.lt_iff_toNat_lt, UInt8.reduceToNat]
  split <;> simp only [Option.some.injEq, reduceCtorEq, false_iff] <;> omega

theorem toNat_ofNat (h : n.isValidChar) : (Char.ofNat n).val.toNat = n := by
  rw [Char.ofNat, dif_pos h]
  rfl

theorem scalar?_eq_some : scalar? least n = some c ↔ least ≤ n ∧ c.val.toNat = n := by
  unfold scalar?
  split
  · rename_i h
    constructor
    · rintro ⟨⟩
      exact ⟨h.1, toNat_ofNat h.2⟩
    · rintro ⟨-, rfl⟩
      exact congrArg some (Char.ofNat_toNat c)
  · rename_i h
    simp only [reduceCtorEq, false_iff]
    rintro ⟨hle, rfl⟩
    exact h ⟨hle, c.valid⟩

theorem lt_of_valid (c : Char) : c.val.toNat < 0x110000 := by
  have h : c.val.toNat.isValidChar := c.valid
  rcases h with h | h <;> omega

/-- The bytes of a character by its code point. -/
theorem encode_eq (c : Char) : String.utf8EncodeChar c =
    if c.val.toNat < 0x80 then [UInt8.ofNat c.val.toNat]
    else if c.val.toNat < 0x800 then [UInt8.ofNat (0xC0 + c.val.toNat / 64), UInt8.ofNat (0x80 + c.val.toNat % 64)]
    else if c.val.toNat < 0x10000 then
      [UInt8.ofNat (0xE0 + c.val.toNat / 4096), UInt8.ofNat (0x80 + c.val.toNat / 64 % 64),
        UInt8.ofNat (0x80 + c.val.toNat % 64)]
    else
      [UInt8.ofNat (0xF0 + c.val.toNat / 262144), UInt8.ofNat (0x80 + c.val.toNat / 4096 % 64),
        UInt8.ofNat (0x80 + c.val.toNat / 64 % 64), UInt8.ofNat (0x80 + c.val.toNat % 64)] := by
  have hlt := lt_of_valid c
  unfold String.utf8EncodeChar
  dsimp only
  repeat' split
  all_goals first | omega | skip
  all_goals simp only [List.cons.injEq, and_true, ← UInt8.toNat_inj, UInt8.toNat_ofNat']
  all_goals omega

theorem encode_ascii (h : b.toNat < 0x80) : String.utf8EncodeChar (Char.ofNat b.toNat) = [b] := by
  rw [encode_eq, toNat_ofNat (Or.inl (by omega)), if_pos h, UInt8.ofNat_toNat]

/-- Where a character is read, its encoding starts. -/
theorem encode_of_leading? (h : leading? b rest = some (c, k)) :
    ∃ t r, rest = t ++ r ∧ t.length = k ∧ String.utf8EncodeChar c = b :: t := by
  have hb := b.toNat_lt
  have ofNat_eq : ∀ {x : UInt8} {n : Nat}, x.toNat = n → UInt8.ofNat n = x := fun h => h ▸ UInt8.ofNat_toNat
  simp only [leading?, UInt8.lt_iff_toNat_lt, UInt8.reduceToNat] at h
  split at h
  · rename_i hone
    cases h
    exact ⟨[], rest, rfl, rfl, encode_ascii hone⟩
  split at h
  · cases h
  split at h
  · split at h
    · rename_i b₁ r
      obtain ⟨x, hx, h⟩ := Option.bind_eq_some_iff.mp h
      obtain ⟨c', hc, h⟩ := Option.bind_eq_some_iff.mp h
      cases h
      obtain ⟨hx, hb₁⟩ := continuation?_eq_some.mp hx
      obtain ⟨hle, hc⟩ := scalar?_eq_some.mp hc
      refine ⟨[b₁], r, rfl, rfl, ?_⟩
      rw [encode_eq, if_neg (by omega), if_pos (by omega), ofNat_eq (x := b) (by omega), ofNat_eq (x := b₁) (by omega)]
    · cases h
  split at h
  · split at h
    · rename_i b₁ b₂ r
      obtain ⟨x, hx, h⟩ := Option.bind_eq_some_iff.mp h
      obtain ⟨y, hy, h⟩ := Option.bind_eq_some_iff.mp h
      obtain ⟨c', hc, h⟩ := Option.bind_eq_some_iff.mp h
      cases h
      obtain ⟨hx, hb₁⟩ := continuation?_eq_some.mp hx
      obtain ⟨hy, hb₂⟩ := continuation?_eq_some.mp hy
      obtain ⟨hle, hc⟩ := scalar?_eq_some.mp hc
      refine ⟨[b₁, b₂], r, rfl, rfl, ?_⟩
      rw [encode_eq, if_neg (by omega), if_neg (by omega), if_pos (by omega), ofNat_eq (x := b) (by omega),
        ofNat_eq (x := b₁) (by omega), ofNat_eq (x := b₂) (by omega)]
    · cases h
  split at h
  · split at h
    · rename_i b₁ b₂ b₃ r
      obtain ⟨x, hx, h⟩ := Option.bind_eq_some_iff.mp h
      obtain ⟨y, hy, h⟩ := Option.bind_eq_some_iff.mp h
      obtain ⟨z, hz, h⟩ := Option.bind_eq_some_iff.mp h
      obtain ⟨c', hc, h⟩ := Option.bind_eq_some_iff.mp h
      cases h
      obtain ⟨hx, hb₁⟩ := continuation?_eq_some.mp hx
      obtain ⟨hy, hb₂⟩ := continuation?_eq_some.mp hy
      obtain ⟨hz, hb₃⟩ := continuation?_eq_some.mp hz
      obtain ⟨hle, hc⟩ := scalar?_eq_some.mp hc
      refine ⟨[b₁, b₂, b₃], r, rfl, rfl, ?_⟩
      rw [encode_eq, if_neg (by omega), if_neg (by omega), if_neg (by omega), ofNat_eq (x := b) (by omega),
        ofNat_eq (x := b₁) (by omega), ofNat_eq (x := b₂) (by omega), ofNat_eq (x := b₃) (by omega)]
    · cases h
  · cases h

theorem continuation?_ofNat {x : Nat} (h : x < 64) : continuation? (UInt8.ofNat (0x80 + x)) = some x :=
  continuation?_eq_some.mpr ⟨h, by rw [UInt8.toNat_ofNat']; omega⟩

/-- Where the encoding of a character starts, that character is read. -/
theorem leading?_of_encode (h : String.utf8EncodeChar c = b :: t) (rest : Bytes) :
    leading? b (t ++ rest) = some (c, t.length) := by
  have hlt := lt_of_valid c
  rw [encode_eq] at h
  split at h
  · rename_i hone
    cases h
    simp only [leading?, UInt8.lt_iff_toNat_lt, UInt8.reduceToNat, UInt8.toNat_ofNat']
    rw [if_pos (by omega), Nat.mod_eq_of_lt (by omega)]
    exact congrArg (fun c => some (c, 0)) (Char.ofNat_toNat c)
  split at h
  · cases h
    simp only [leading?, UInt8.lt_iff_toNat_lt, UInt8.reduceToNat, UInt8.toNat_ofNat']
    rw [if_neg (by omega), if_neg (by omega), if_pos (by omega)]
    refine Option.bind_eq_some_iff.mpr ⟨_, continuation?_ofNat (by omega), ?_⟩
    exact Option.bind_eq_some_iff.mpr ⟨c, scalar?_eq_some.mpr ⟨by omega, by omega⟩, rfl⟩
  split at h
  · cases h
    simp only [leading?, UInt8.lt_iff_toNat_lt, UInt8.reduceToNat, UInt8.toNat_ofNat']
    rw [if_neg (by omega), if_neg (by omega), if_neg (by omega), if_pos (by omega)]
    refine Option.bind_eq_some_iff.mpr ⟨_, continuation?_ofNat (by omega), ?_⟩
    refine Option.bind_eq_some_iff.mpr ⟨_, continuation?_ofNat (by omega), ?_⟩
    exact Option.bind_eq_some_iff.mpr ⟨c, scalar?_eq_some.mpr ⟨by omega, by omega⟩, rfl⟩
  · cases h
    simp only [leading?, UInt8.lt_iff_toNat_lt, UInt8.reduceToNat, UInt8.toNat_ofNat']
    rw [if_neg (by omega), if_neg (by omega), if_neg (by omega), if_neg (by omega), if_pos (by omega)]
    refine Option.bind_eq_some_iff.mpr ⟨_, continuation?_ofNat (by omega), ?_⟩
    refine Option.bind_eq_some_iff.mpr ⟨_, continuation?_ofNat (by omega), ?_⟩
    refine Option.bind_eq_some_iff.mpr ⟨_, continuation?_ofNat (by omega), ?_⟩
    exact Option.bind_eq_some_iff.mpr ⟨c, scalar?_eq_some.mpr ⟨by omega, by omega⟩, rfl⟩

theorem leading?_ascii (h : b.toNat < 0x80) : leading? b rest = some (Char.ofNat b.toNat, 0) :=
  leading?_of_encode (encode_ascii h) rest

/-- The bytes of a character after the first are no start of another. -/
theorem continuation?_of_encode (h : String.utf8EncodeChar c = b :: t) {x : UInt8} (hx : x ∈ t) :
    continuation? x ≠ none := by
  suffices hsome : ∃ y < 64, x = UInt8.ofNat (0x80 + y) by
    obtain ⟨y, hy, rfl⟩ := hsome
    rw [continuation?_ofNat hy]
    simp
  rw [encode_eq] at h
  repeat' split at h
  all_goals
    cases h
    simp only [List.not_mem_nil, List.mem_cons, or_false] at hx
  · exact ⟨_, by omega, hx⟩
  · rcases hx with hx | hx
    · exact ⟨_, by omega, hx⟩
    · exact ⟨_, by omega, hx⟩
  · rcases hx with hx | hx | hx
    · exact ⟨_, by omega, hx⟩
    · exact ⟨_, by omega, hx⟩
    · exact ⟨_, by omega, hx⟩

theorem exists_encode_eq_cons (c : Char) : ∃ b t, String.utf8EncodeChar c = b :: t :=
  List.exists_cons_of_ne_nil String.utf8EncodeChar_ne_nil

/-! ### Texts -/

theorem utf8_eq (s : String) : utf8 s = s.toList.flatMap String.utf8EncodeChar := by
  rw [utf8, String.toUTF8_eq_toByteArray, ← String.utf8Encode_toList, List.utf8Encode, List.data_toByteArray]

theorem utf8_append (s t : String) : utf8 (s ++ t) = utf8 s ++ utf8 t := by
  simp [utf8_eq]

theorem glyphsOnto_eq (done : List Glyph) (skip : Nat) (s : Bytes) :
    glyphsOnto done skip s = done.reverse ++ glyphs (s.drop skip) := by
  induction s generalizing done skip with
  | nil => simp [glyphsOnto, glyphs]
  | cons b s ih =>
    cases skip with
    | succ skip => simpa [glyphsOnto] using ih done skip
    | zero =>
      simp only [glyphsOnto, glyphs, List.drop_zero]
      cases leading? b s with
      | none => simp [ih]
      | some r => simp [ih]

@[simp]
theorem glyphs_nil : glyphs [] = [] := rfl

@[simp]
theorem glyphs_encode (c : Char) (s : Bytes) : glyphs (String.utf8EncodeChar c ++ s) = .char c :: glyphs s := by
  obtain ⟨b, t, h⟩ := exists_encode_eq_cons c
  rw [h, List.cons_append, glyphs, glyphsOnto, leading?_of_encode h]
  simp [glyphsOnto_eq]

theorem glyphs_stray (h : leading? b s = none) : glyphs (b :: s) = .stray b :: glyphs s := by
  rw [glyphs, glyphsOnto, h]
  simp [glyphsOnto_eq]

theorem glyphs_ascii (h : b.toNat < 0x80) : glyphs (b :: s) = .char (Char.ofNat b.toNat) :: glyphs s := by
  rw [← glyphs_encode, encode_ascii h]
  rfl

/-- A text is read one glyph after the other. -/
theorem glyph_induction {motive : Bytes → Prop} (nil : motive [])
    (char : ∀ c s, motive s → motive (String.utf8EncodeChar c ++ s))
    (stray : ∀ b s, leading? b s = none → motive s → motive (b :: s)) (s : Bytes) : motive s := by
  induction hn : s.length using Nat.strongRecOn generalizing s with
  | _ n ih =>
    cases s with
    | nil => exact nil
    | cons b s =>
      cases h : leading? b s with
      | none => exact stray b s h (ih s.length (by simp_all; omega) s rfl)
      | some r =>
        obtain ⟨t, rest, rfl, -, hc⟩ := encode_of_leading? h
        have hmotive := char r.1 rest (ih rest.length (by simp_all; omega) rest rfl)
        rwa [hc, List.cons_append] at hmotive

@[simp]
theorem unglyphs_glyphs (s : Bytes) : unglyphs (glyphs s) = s := by
  induction s using glyph_induction with
  | nil => rfl
  | char c s ih => simpa [unglyphs, Glyph.bytes] using ih
  | stray b s h ih => simpa [glyphs_stray h, unglyphs, Glyph.bytes] using ih

theorem length_glyphs_le (s : Bytes) : (glyphs s).length ≤ s.length := by
  induction s using glyph_induction with
  | nil => simp
  | char c s ih =>
    obtain ⟨b, t, hc⟩ := exists_encode_eq_cons c
    rw [glyphs_encode, hc, List.length_cons, List.length_append, List.length_cons]
    omega
  | stray b s hb ih => simpa [glyphs_stray hb] using ih

theorem glyphs_flatMap (cs : List Char) : glyphs (cs.flatMap String.utf8EncodeChar) = cs.map .char := by
  induction cs with
  | nil => rfl
  | cons c cs ih => rw [List.flatMap_cons, glyphs_encode, ih, List.map_cons]

theorem mem_encode_ascii (h : b.toNat < 0x80) : b ∈ String.utf8EncodeChar c ↔ c = Char.ofNat b.toNat := by
  constructor
  · intro hb
    obtain ⟨x, t, hc⟩ := exists_encode_eq_cons c
    rw [hc, List.mem_cons] at hb
    rcases hb with rfl | hb
    · have hread := leading?_of_encode hc []
      rw [leading?_ascii h] at hread
      exact (Prod.mk.inj (Option.some.inj hread)).1.symm
    · refine absurd ?_ (continuation?_of_encode hc hb)
      cases hcont : continuation? b with
      | none => rfl
      | some x =>
        obtain ⟨-, hx⟩ := continuation?_eq_some.mp hcont
        omega
  · rintro rfl
    rw [encode_ascii h]
    exact List.mem_singleton.mpr rfl

/-- The bytes of ASCII characters occur in no other glyphs. -/
theorem mem_iff_char_mem (h : b.toNat < 0x80) : b ∈ s ↔ .char (Char.ofNat b.toNat) ∈ glyphs s := by
  induction s using glyph_induction with
  | nil => simp
  | char c s ih => simp [mem_encode_ascii h, ih, eq_comm]
  | stray x s hx ih =>
    have hne : b ≠ x := by
      rintro rfl
      rw [leading?_ascii h] at hx
      cases hx
    simp [glyphs_stray hx, ih, hne]

/-- A text that does not start in the middle of a character. -/
def Starts (s : Bytes) : Prop := ∀ b ∈ s.head?, continuation? b = none

theorem starts_encode (c : Char) (s : Bytes) : Starts (String.utf8EncodeChar c ++ s) := by
  obtain ⟨b, t, h⟩ := exists_encode_eq_cons c
  intro x hx
  rw [h, List.cons_append, List.head?_cons, Option.mem_some_iff] at hx
  subst hx
  cases hcont : continuation? b with
  | none => rfl
  | some x =>
    obtain ⟨hx, hb⟩ := continuation?_eq_some.mp hcont
    have hlt := lt_of_valid c
    rw [encode_eq] at h
    repeat' split at h
    all_goals
      cases h
      rw [UInt8.toNat_ofNat'] at hb
      omega

/-- Texts that are put together between characters are read one after the other. -/
theorem glyphs_append (s : Bytes) (ht : Starts t) : glyphs (s ++ t) = glyphs s ++ glyphs t := by
  induction s using glyph_induction with
  | nil => rfl
  | char c s ih => simp [ih]
  | stray b s h ih =>
    rw [glyphs_stray h, List.cons_append, List.cons_append, ← ih]
    refine glyphs_stray ?_
    cases hlead : leading? b (s ++ t) with
    | none => rfl
    | some r =>
      -- A character that starts here would have to go on in the second text.
      obtain ⟨u, rest, heq, -, hc⟩ := encode_of_leading? hlead
      rcases List.append_eq_append_iff.mp heq with ⟨v, rfl, rfl⟩ | ⟨v, rfl, rfl⟩
      · cases v with
        | nil =>
          rw [List.append_nil] at hc
          have hread := leading?_of_encode hc []
          rw [List.append_nil, h] at hread
          cases hread
        | cons x v => exact absurd (ht x (by simp)) (continuation?_of_encode hc (by simp))
      · rw [leading?_of_encode hc] at h
        cases h

/-- Behind complete characters a text is read as if it stood alone. -/
theorem glyphs_append_of_chars (h : ∀ g ∈ glyphs s, ∃ c, g = .char c) : glyphs (s ++ t) = glyphs s ++ glyphs t := by
  induction s using glyph_induction with
  | nil => rfl
  | char c s ih =>
    rw [glyphs_encode, List.forall_mem_cons] at h
    simp [ih h.2]
  | stray b s hb ih =>
    rw [glyphs_stray hb, List.forall_mem_cons] at h
    obtain ⟨⟨c, hc⟩, -⟩ := h
    cases hc

/-! ### Parts of what was read -/

/-- Glyphs that are read from their own bytes. -/
def Legible (gs : List Glyph) : Prop := glyphs (unglyphs gs) = gs

theorem legible_glyphs (s : Bytes) : Legible (glyphs s) := congrArg glyphs (unglyphs_glyphs s)

theorem unglyphs_append (gs hs : List Glyph) : unglyphs (gs ++ hs) = unglyphs gs ++ unglyphs hs := by
  simp [unglyphs]

theorem legible_char : Legible (.char c :: gs) ↔ Legible gs := by
  have hbytes : unglyphs (.char c :: gs) = String.utf8EncodeChar c ++ unglyphs gs := rfl
  rw [Legible, hbytes, glyphs_encode, List.cons.injEq]
  exact and_iff_right rfl

theorem legible_stray : Legible (.stray b :: gs) ↔ leading? b (unglyphs gs) = none ∧ Legible gs := by
  have hbytes : unglyphs (.stray b :: gs) = b :: unglyphs gs := rfl
  rw [Legible, hbytes]
  cases h : leading? b (unglyphs gs) with
  | none =>
    rw [glyphs_stray h, List.cons.injEq]
    exact ⟨fun h => ⟨rfl, h.2⟩, fun h => ⟨rfl, h.2⟩⟩
  | some r =>
    obtain ⟨t, rest, heq, -, hc⟩ := encode_of_leading? h
    rw [heq, ← List.cons_append, ← hc, glyphs_encode]
    simp

theorem Legible.right (h : Legible (gs ++ hs)) : Legible hs := by
  induction gs with
  | nil => exact h
  | cons g gs ih =>
    cases g with
    | char c => exact ih (legible_char.mp h)
    | stray b => exact ih (legible_stray.mp h).2

theorem Legible.left (h : Legible (gs ++ hs)) : Legible gs := by
  induction gs with
  | nil => rfl
  | cons g gs ih =>
    cases g with
    | char c => exact legible_char.mpr (ih (legible_char.mp h))
    | stray b =>
      rw [List.cons_append] at h
      obtain ⟨hread, hrest⟩ := legible_stray.mp h
      refine legible_stray.mpr ⟨?_, ih hrest⟩
      cases hlead : leading? b (unglyphs gs) with
      | none => rfl
      | some r =>
        obtain ⟨t, rest, heq, -, hc⟩ := encode_of_leading? hlead
        rw [unglyphs_append, heq, List.append_assoc, leading?_of_encode hc] at hread
        cases hread

end CacheTiming.Text
