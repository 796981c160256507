import CacheTiming.Proofs.Program.Line
import Mathlib.Data.List.Perm.Lattice

/-! Programs and the lines that they are read from.

A program has the instructions of its lines in their order, and each label stands for the number of instructions
in front of it. That is all that lines have to say: they say the same program in any order that keeps the
instructions and the places of the labels. The canonical lines of a program are one such order. -/

namespace CacheTiming

open Text

variable {name : String} {text line : Bytes} {l : Line} {ls ls' : List Line} {i j : Instruction} {labels : Labels}

/-! ### The lines of a text -/

namespace Text

theorem not_mem_of_mem_splitOn {s t : Bytes} {b : UInt8} (h : t ∈ s.splitOn b) : b ∉ t := by
  induction s generalizing t with
  | nil =>
    rw [List.splitOn_nil, List.mem_singleton] at h
    simp [h]
  | cons x s ih =>
    rw [List.splitOn_cons_eq_if_modifyHead] at h
    split at h
    · rcases List.mem_cons.mp h with rfl | h
      · simp
      · exact ih h
    · rename_i hx
      obtain ⟨part, parts, hparts⟩ := List.exists_cons_of_ne_nil (List.splitOn_ne_nil b s)
      rw [hparts] at h ih
      rcases List.mem_cons.mp h with rfl | h
      · have hx : x ≠ b := by simpa using hx
        have hpart := ih List.mem_cons_self
        simp [hpart, hx.symm]
      · exact ih (List.mem_cons_of_mem _ h)

theorem not_mem_of_mem_lines {s t : Bytes} (h : t ∈ lines s) : lineFeed ∉ t := by
  refine not_mem_of_mem_splitOn (s := s) ?_
  unfold lines at h
  dsimp only at h
  split at h
  · exact List.dropLast_subset _ h
  · exact h

/-- Lines that are put together, each with a line feed, are the lines of the text. -/
theorem lines_flatMap {ts : List Bytes} (h : ∀ t ∈ ts, lineFeed ∉ t) : lines (ts.flatMap (· ++ [lineFeed])) = ts := by
  have hparts : (ts.flatMap (· ++ [lineFeed])).splitOn lineFeed = ts ++ [[]] := by
    induction ts with
    | nil => rw [List.flatMap_nil, List.splitOn_nil, List.nil_append]
    | cons t ts ih =>
      obtain ⟨ht, hts⟩ := List.forall_mem_cons.mp h
      rw [List.flatMap_cons, List.append_assoc, List.singleton_append, List.splitOn_append_cons_self_of_not_mem ht,
        ih hts, List.cons_append]
  unfold lines
  dsimp only
  rw [hparts, if_pos List.getLast?_concat, List.dropLast_concat]

end Text

/-! ### What lines say together -/

namespace Line

/-- A line that is read: it says something and is not too long. -/
structure Accepted (l : Line) (line : Bytes) : Prop where
  spelled : l.Spelled line
  short : line.length < lineLimit

theorem exists_accepted {input : List Bytes} (h : List.Forall₂ Accepted ls input) (hl : l ∈ ls) :
    ∃ line ∈ input, l.Accepted line := by
  induction h with
  | nil => cases hl
  | cons hline _ ih =>
    rcases List.mem_cons.mp hl with rfl | hl
    · exact ⟨_, List.mem_cons_self, hline⟩
    · obtain ⟨line, hmem, haccepted⟩ := ih hl
      exact ⟨line, List.mem_cons_of_mem _ hmem, haccepted⟩

/-- A line says one thing only. -/
theorem accepted_leftUnique : Relator.LeftUnique Accepted := by
  intro l l' line h h'
  have hread := read_eq_ok.mpr h.spelled
  rw [read_eq_ok.mpr h'.spelled] at hread
  cases hread
  rfl

/-- The instructions of lines. -/
def instructions : List Line → List Instruction
  | [] => []
  | .blank :: ls => instructions ls
  | .label _ :: ls => instructions ls
  | .instruction i :: ls => i :: instructions ls

/-- The labels of lines with their places; there are `n` instructions in front of the lines. -/
def places (n : Nat) : List Line → List (Bytes × UInt64)
  | [] => []
  | .blank :: ls => places n ls
  | .label name :: ls => (name, n.toUInt64) :: places n ls
  | .instruction _ :: ls => places (n + 1) ls

/-- Lines in another order that says the same: the instructions are in the same order and have the same labels in
    front of them. -/
structure Rearranged (ls ls' : List Line) : Prop where
  instructions : instructions ls = instructions ls'
  places : (places 0 ls).Perm (places 0 ls')

theorem instructions_append (ls ls' : List Line) : instructions (ls ++ ls') = instructions ls ++ instructions ls' := by
  induction ls with
  | nil => rfl
  | cons l ls ih => cases l <;> simp [instructions, ih]

theorem places_append (n : Nat) (ls ls' : List Line) :
    places n (ls ++ ls') = places n ls ++ places (n + (instructions ls).length) ls' := by
  induction ls generalizing n with
  | nil => rfl
  | cons l ls ih =>
    cases l with
    | blank | label => simp [instructions, places, ih]
    | instruction i => simp [instructions, places, ih, Nat.add_assoc, Nat.add_comm 1]

theorem mem_instructions : i ∈ instructions ls ↔ .instruction i ∈ ls := by
  induction ls with
  | nil => simp [instructions]
  | cons l ls ih => cases l <;> simp [instructions, ih]

theorem label_mem_of_mem_places {n : Nat} {x : Bytes × UInt64} (h : x ∈ places n ls) : .label x.1 ∈ ls := by
  induction ls generalizing n with
  | nil => cases h
  | cons l ls ih =>
    cases l with
    | blank | instruction => exact List.mem_cons_of_mem _ (ih h)
    | label name =>
      rcases List.mem_cons.mp h with rfl | h
      · exact List.mem_cons_self
      · exact List.mem_cons_of_mem _ (ih h)

theorem toNat_le_of_mem_places {n : Nat} {x : Bytes × UInt64} (h : x ∈ places n ls) :
    x.2.toNat ≤ n + (instructions ls).length := by
  induction ls generalizing n with
  | nil => cases h
  | cons l ls ih =>
    cases l with
    | blank => exact ih h
    | instruction i =>
      have hle := ih h
      rw [instructions, List.length_cons]
      omega
    | label name =>
      rcases List.mem_cons.mp h with rfl | h
      · rw [Nat.toUInt64_eq, UInt64.toNat_ofNat']
        exact Nat.le_trans (Nat.mod_le _ _) (Nat.le_add_right _ _)
      · exact ih h

end Line

namespace Program

variable {p q : Program} {d d' : Draft}

/-- The program that lines say. -/
structure OfLines (p : Program) (ls : List Line) : Prop where
  code : List.Forall₂ (fun i i' => resolve p.labels i = .ok i') (Line.instructions ls) p.code
  labels : p.labels.toList.Perm (Line.places 0 ls)

theorem OfLines.of_rearranged (h : p.OfLines ls) (hls : Line.Rearranged ls ls') : p.OfLines ls' :=
  ⟨hls.instructions ▸ h.code, h.labels.trans hls.places⟩

/-! ### Reading lines -/

section Map
variable {α β : Type} [Ord α] [Std.TransOrd α]

theorem nodup_map_fst_toList (m : Std.ExtTreeMap α β) : (m.toList.map Prod.fst).Nodup := by
  rw [Std.ExtTreeMap.map_fst_toList_eq_keys]
  exact Std.ExtTreeMap.nodup_keys

theorem toList_insert_perm [Std.LawfulEqOrd α] {m : Std.ExtTreeMap α β} {k : α} (h : k ∉ m) (v : β) :
    (m.insert k v).toList.Perm ((k, v) :: m.toList) := by
  have hnone : m[k]? = none := Std.ExtTreeMap.getElem?_eq_none h
  have hcons : ((k, v) :: m.toList).Nodup := by
    refine List.nodup_cons.mpr ⟨?_, (nodup_map_fst_toList m).of_map⟩
    rw [Std.ExtTreeMap.mem_toList_iff_getElem?_eq_some, hnone]
    simp
  rw [List.perm_ext_iff_of_nodup (nodup_map_fst_toList _).of_map hcons]
  rintro ⟨a, w⟩
  rw [Std.ExtTreeMap.mem_toList_iff_getElem?_eq_some, Std.ExtTreeMap.getElem?_insert, List.mem_cons,
    Std.ExtTreeMap.mem_toList_iff_getElem?_eq_some]
  by_cases ha : k = a
  · subst ha
    simp [hnone, eq_comm]
  · simp [ha, Ne.symm ha]

end Map

namespace Draft

/-- What lines add to a draft. -/
structure Extends (d : Draft) (ls : List Line) (d' : Draft) : Prop where
  code : d'.code = (Line.instructions ls).reverse ++ d.code
  size : d'.size = d.size + (Line.instructions ls).length
  labels : d'.labels.toList.Perm (d.labels.toList ++ Line.places d.size ls)

theorem extends_nil : d.Extends [] d' ↔ d' = d := by
  constructor
  · rintro ⟨hcode, hsize, hlabels⟩
    have hlabels : d'.labels = d.labels := Std.ExtTreeMap.ext_toList (by simpa [Line.places] using hlabels)
    cases d
    cases d'
    simp_all [Line.instructions]
  · rintro rfl
    exact ⟨rfl, rfl, by simp [Line.places]⟩

theorem extends_blank : d.Extends (.blank :: ls) d' ↔ d.Extends ls d' :=
  ⟨fun h => ⟨h.code, h.size, h.labels⟩, fun h => ⟨h.code, h.size, h.labels⟩⟩

theorem extends_instruction :
    d.Extends (.instruction i :: ls) d' ↔ { d with code := i :: d.code, size := d.size + 1 : Draft }.Extends ls d' := by
  constructor
  · rintro ⟨hcode, hsize, hlabels⟩
    refine ⟨?_, ?_, hlabels⟩
    · simpa [Line.instructions] using hcode
    · simpa [Line.instructions, Nat.add_assoc, Nat.add_comm 1] using hsize
  · rintro ⟨hcode, hsize, hlabels⟩
    refine ⟨?_, ?_, hlabels⟩
    · simpa [Line.instructions] using hcode
    · simpa [Line.instructions, Nat.add_assoc, Nat.add_comm 1] using hsize

theorem extends_label {label : Bytes} :
    d.Extends (.label label :: ls) d' ↔
      label ∉ d.labels ∧ { d with labels := d.labels.insert label d.size.toUInt64 : Draft }.Extends ls d' := by
  constructor
  · rintro ⟨hcode, hsize, hlabels⟩
    have hnew : label ∉ d.labels := by
      intro hmem
      have hnodup := (hlabels.map Prod.fst).nodup_iff.mp (nodup_map_fst_toList d'.labels)
      rw [List.map_append, Std.ExtTreeMap.map_fst_toList_eq_keys] at hnodup
      exact List.disjoint_of_nodup_append hnodup (Std.ExtTreeMap.mem_keys.mpr hmem) List.mem_cons_self
    refine ⟨hnew, hcode, hsize, hlabels.trans ?_⟩
    exact List.perm_middle.trans ((toList_insert_perm hnew _).symm.append_right _)
  · rintro ⟨hnew, hcode, hsize, hlabels⟩
    refine ⟨hcode, hsize, hlabels.trans ?_⟩
    exact ((toList_insert_perm hnew _).append_right _).trans List.perm_middle.symm

end Draft

theorem readLines_eq_ok {number : Nat} {input : List Bytes} :
    readLines number d input = .ok d' ↔ ∃ ls, List.Forall₂ Line.Accepted ls input ∧ d.Extends ls d' := by
  induction input generalizing number d with
  | nil =>
    simp only [readLines, Except.ok.injEq, List.forall₂_nil_right_iff, exists_eq_left, Draft.extends_nil]
    exact eq_comm
  | cons line input ih =>
    rw [readLines]
    split
    · rename_i hlong
      simp only [reduceCtorEq, false_iff]
      rintro ⟨ls, hls, -⟩
      cases hls with
      | cons hl => exact absurd hl.short (Nat.not_lt.mpr hlong)
    rename_i hshort
    rw [Nat.not_le] at hshort
    -- The line says one thing only, so the other lines can be looked at for themselves.
    have cons_iff : ∀ l, Line.read line = .ok l →
        ((∃ ls, List.Forall₂ Line.Accepted ls (line :: input) ∧ d.Extends ls d') ↔
          ∃ ls, List.Forall₂ Line.Accepted ls input ∧ d.Extends (l :: ls) d') := by
      intro l hl
      constructor
      · rintro ⟨ls, hls, hd⟩
        cases hls with
        | @cons l' _ ls _ hl' hls =>
          obtain rfl := Line.accepted_leftUnique hl' ⟨Line.read_eq_ok.mp hl, hshort⟩
          exact ⟨ls, hls, hd⟩
      · rintro ⟨ls, hls, hd⟩
        exact ⟨l :: ls, .cons ⟨Line.read_eq_ok.mp hl, hshort⟩ hls, hd⟩
    split
    · rename_i e he
      simp only [reduceCtorEq, false_iff]
      rintro ⟨ls, hls, -⟩
      cases hls with
      | cons hl =>
        rw [Line.read_eq_ok.mpr hl.spelled] at he
        cases he
    · rename_i hl
      rw [cons_iff _ hl, ih]
      simp only [Draft.extends_blank]
    · rename_i label hl
      rw [cons_iff _ hl]
      simp only [Draft.extends_label]
      split
      · rename_i hmem
        simp [Std.ExtTreeMap.mem_iff_contains, hmem]
      · rename_i hmem
        rw [ih]
        simp [Std.ExtTreeMap.mem_iff_contains, hmem]
    · rename_i i hl
      rw [cons_iff _ hl, ih]
      simp only [Draft.extends_instruction]

theorem mapM_resolve_eq_ok {code code' : List Instruction} :
    code.mapM (resolve labels) = .ok code' ↔ List.Forall₂ (fun i i' => resolve labels i = .ok i') code code' := by
  induction code generalizing code' with
  | nil => cases code' <;> simp [pure, Except.pure]
  | cons i code ih =>
    rw [List.mapM_cons]
    constructor
    · intro h
      cases hi : resolve labels i with
      | error e =>
        rw [hi] at h
        cases h
      | ok i' =>
        cases hcode : code.mapM (resolve labels) with
        | error e =>
          rw [hi, hcode] at h
          cases h
        | ok code' =>
          rw [hi, hcode] at h
          cases h
          exact .cons hi (ih.mp hcode)
    · intro h
      cases h with
      | cons hi hcode =>
        rw [hi, ih.mpr hcode]
        rfl

/-- A text is read as the program that its lines say. -/
theorem parse_eq_ok :
    parse name text = .ok p ↔
      p.name = name ∧
        ∃ ls, List.Forall₂ Line.Accepted ls (lines text) ∧ p.OfLines ls := by
  constructor
  · intro h
    unfold parse at h
    cases hd : readLines 1 {} (lines text) with
    | error e =>
      rw [hd] at h
      cases h
    | ok d =>
      obtain ⟨ls, hls, hcode, -, hlabels⟩ := readLines_eq_ok.mp hd
      rw [List.append_nil] at hcode
      rw [hd] at h
      simp only [bind, Except.bind, hcode, List.reverse_reverse] at h
      split at h
      · cases h
      · rename_i code hresolve
        cases h
        exact ⟨rfl, ls, hls, mapM_resolve_eq_ok.mp hresolve, hlabels⟩
  · rintro ⟨rfl, ls, hls, hcode, hlabels⟩
    let d : Draft :=
      { code := (Line.instructions ls).reverse, size := (Line.instructions ls).length, labels := p.labels }
    have hd : readLines 1 {} (lines text) = .ok d :=
      readLines_eq_ok.mpr ⟨ls, hls, by simp [d], by simp [d], hlabels⟩
    unfold parse
    rw [hd]
    simp only [bind, Except.bind, d, List.reverse_reverse, mapM_resolve_eq_ok.mpr hcode]
    rfl

end Program

end CacheTiming
