import CacheTiming.Proofs.Program.Parse

/-! The grammar of program texts.

A text is split at its line feeds. It is a program if each part is a line that says something and is not too long, no
label is defined a second time, and each label that an instruction goes to is defined on some line, be it above or
below. The program then has the instructions in the order of their lines, and a label stands for the number of the
instructions above it. -/

namespace CacheTiming

open Text

variable {name : String} {text label : Bytes} {ls : List Line} {i j : Instruction} {labels : Labels} {pc : UInt64}

/-! ### Lists side by side -/

section Forall₂
variable {α β : Type} {R : α → β → Prop} {as : List α} {bs : List β} {a : α} {b : β}

theorem forall₂_concat_right (h : List.Forall₂ R as (bs ++ [b])) :
    ∃ front last, as = front ++ [last] ∧ List.Forall₂ R front bs ∧ R last b := by
  have hfront := List.forall₂_take_append _ _ _ h
  have hback := List.forall₂_drop_append _ _ _ h
  obtain ⟨last, rest, hlast, hrest, heq⟩ := List.forall₂_cons_right_iff.mp hback
  rw [List.forall₂_nil_right_iff.mp hrest] at heq
  exact ⟨_, last, by rw [← heq, List.take_append_drop], hfront, hlast⟩

theorem exists_forall₂ (h : ∀ a ∈ as, ∃ b, R a b) : ∃ bs, List.Forall₂ R as bs := by
  induction as with
  | nil => exact ⟨[], .nil⟩
  | cons a as ih =>
    obtain ⟨⟨b, hb⟩, has⟩ := List.forall_mem_cons.mp h
    obtain ⟨bs, hbs⟩ := ih has
    exact ⟨b :: bs, .cons hb hbs⟩

theorem exists_getElem?_of_forall₂ (h : List.Forall₂ R as bs) {n : Nat} (ha : as[n]? = some a) :
    ∃ b, bs[n]? = some b ∧ R a b := by
  obtain ⟨hn, rfl⟩ := List.getElem?_eq_some_iff.mp ha
  exact ⟨_, List.getElem?_eq_getElem (h.length_eq ▸ hn), h.get hn (h.length_eq ▸ hn)⟩

theorem exists_mem_of_forall₂ (h : List.Forall₂ R as bs) (hb : b ∈ bs) : ∃ a ∈ as, R a b := by
  obtain ⟨n, hn, rfl⟩ := List.mem_iff_getElem.mp hb
  have hn' : n < as.length := h.length_eq ▸ hn
  exact ⟨as[n], List.getElem_mem hn', h.get hn' hn⟩

end Forall₂

theorem Text.length_splitOn_le (s : Bytes) (b : UInt8) : (s.splitOn b).length ≤ s.length + 1 := by
  induction s with
  | nil => simp
  | cons x s ih =>
    rw [List.splitOn_cons_eq_if_modifyHead]
    split
    · simpa using ih
    · simpa using Nat.le_succ_of_le ih

/-! ### Places -/

namespace Line

theorem accepted_nil : Accepted .blank [] where
  spelled := ⟨[], [], [], [], rfl, blank_nil, blank_nil, .blank, by simp, by simp⟩
  short := by decide

theorem length_instructions_le (ls : List Line) : (instructions ls).length ≤ ls.length := by
  induction ls with
  | nil => rfl
  | cons l ls ih =>
    cases l with
    | blank | label => exact Nat.le_succ_of_le ih
    | instruction => exact Nat.succ_le_succ ih

theorem rearranged_concat_blank (ls : List Line) : Rearranged ls (ls ++ [.blank]) where
  instructions := by simp [instructions_append, Line.instructions]
  places := by simp [places_append, Line.places]

theorem mem_places_iff {n : Nat} :
    (label, pc) ∈ places n ls ↔
      ∃ before after, ls = before ++ .label label :: after ∧ pc = (n + (instructions before).length).toUInt64 := by
  constructor
  · intro h
    induction ls generalizing n with
    | nil => cases h
    | cons l ls ih =>
      cases l with
      | blank =>
        obtain ⟨before, after, rfl, rfl⟩ := ih h
        exact ⟨.blank :: before, after, rfl, rfl⟩
      | instruction i =>
        obtain ⟨before, after, rfl, rfl⟩ := ih h
        refine ⟨.instruction i :: before, after, rfl, ?_⟩
        rw [instructions, List.length_cons, Nat.add_right_comm, Nat.add_assoc]
      | label name =>
        rcases List.mem_cons.mp h with heq | h
        · cases heq
          exact ⟨[], ls, rfl, rfl⟩
        · obtain ⟨before, after, rfl, rfl⟩ := ih h
          exact ⟨.label name :: before, after, rfl, rfl⟩
  · rintro ⟨before, after, rfl, rfl⟩
    rw [places_append]
    exact List.mem_append_right _ List.mem_cons_self

theorem mem_map_fst_places {n : Nat} : label ∈ (places n ls).map Prod.fst ↔ .label label ∈ ls := by
  rw [List.mem_map]
  constructor
  · rintro ⟨x, hx, rfl⟩
    exact label_mem_of_mem_places hx
  · intro h
    obtain ⟨before, after, rfl⟩ := List.append_of_mem h
    exact ⟨_, mem_places_iff.mpr ⟨before, after, rfl, rfl⟩, rfl⟩

/-- No label is defined on two lines. -/
def Distinct (ls : List Line) : Prop :=
  ls.Pairwise fun earlier later => ∀ label, earlier = .label label → later ≠ .label label

theorem nodup_places_iff {n : Nat} : ((places n ls).map Prod.fst).Nodup ↔ Distinct ls := by
  unfold Distinct
  induction ls generalizing n with
  | nil => simp [places]
  | cons l ls ih =>
    rw [List.pairwise_cons]
    cases l with
    | blank | instruction => simp [places, ih]
    | label name =>
      rw [places, List.map_cons, List.nodup_cons, mem_map_fst_places, ih]
      refine and_congr_left fun _ => ?_
      constructor
      · rintro h later hlater label ⟨rfl⟩ rfl
        exact h hlater
      · exact fun h hmem => h _ hmem name rfl rfl

end Line

/-! ### Programs -/

namespace Program

variable {p : Program}

theorem resolve_eq_ok :
    resolve labels i = .ok j ↔
      (i.op.takesLabel = true → ∃ place, labels[i.label]? = some place ∧ j = { i with arg := place }) ∧
        (i.op.takesLabel = false → j = i) := by
  unfold resolve
  cases htakes : i.op.takesLabel with
  | false => simp [eq_comm]
  | true =>
    cases hplace : labels[i.label]? with
    | none => simp
    | some place => simp [eq_comm]

theorem exists_labels {xs : List (Bytes × UInt64)} (h : (xs.map Prod.fst).Nodup) :
    ∃ labels : Labels, labels.toList.Perm xs := by
  induction xs with
  | nil => exact ⟨∅, by simp⟩
  | cons x xs ih =>
    obtain ⟨hx, hxs⟩ := List.nodup_cons.mp h
    obtain ⟨labels, hlabels⟩ := ih hxs
    have hnew : x.1 ∉ labels := by
      rwa [← Std.ExtTreeMap.mem_keys, ← Std.ExtTreeMap.map_fst_toList_eq_keys, (hlabels.map _).mem_iff]
    exact ⟨labels.insert x.1 x.2, (toList_insert_perm hnew x.2).trans (hlabels.cons x)⟩

theorem parse_eq_ok_iff_splitOn :
    parse name text = .ok p ↔
      p.name = name ∧ ∃ ls, List.Forall₂ Line.Accepted ls (text.splitOn lineFeed) ∧ p.OfLines ls := by
  rw [parse_eq_ok, Text.lines]
  refine and_congr_right fun _ => ?_
  split
  · rename_i hlast
    obtain ⟨parts, hparts⟩ := List.getLast?_eq_some_iff.mp hlast
    rw [hparts, List.dropLast_concat]
    -- What follows the last line feed is blank if it is empty, and says nothing.
    constructor
    · rintro ⟨ls, hls, hp⟩
      exact ⟨ls ++ [.blank], List.rel_append hls (.cons Line.accepted_nil .nil),
        hp.of_rearranged (Line.rearranged_concat_blank ls)⟩
    · rintro ⟨ls, hls, hp⟩
      obtain ⟨front, last, rfl, hfront, hlast⟩ := forall₂_concat_right hls
      obtain rfl := Line.accepted_leftUnique hlast Line.accepted_nil
      have hsame := Line.rearranged_concat_blank front
      exact ⟨front, hfront, hp.of_rearranged ⟨hsame.instructions.symm, hsame.places.symm⟩⟩
  · rfl

/-- The lines of a text that is a program. -/
structure Grammatical (text : Bytes) (ls : List Line) : Prop where
  lines : List.Forall₂ Line.Accepted ls (text.splitOn lineFeed)
  distinct : Line.Distinct ls
  defined : ∀ i, .instruction i ∈ ls → i.op.takesLabel = true → .label i.label ∈ ls

/-- The program that lines of a text are read as. -/
structure Transcribes (text : Bytes) (ls : List Line) (p : Program) : Prop where
  size : p.code.length = (Line.instructions ls).length
  code : ∀ before i after, ls = before ++ .instruction i :: after →
    ∃ i', p.code[(Line.instructions before).length]? = some i' ∧ i'.op = i.op ∧ i'.label = i.label ∧
      (i.op.takesLabel = false → i'.arg = i.arg)
  labels : ∀ label pc, p.labels[label]? = some pc ↔
    ∃ before after, ls = before ++ .label label :: after ∧ pc = (Line.instructions before).length.toUInt64
  counted : text.length < UInt64.size → ∀ before label after, ls = before ++ .label label :: after →
    (Line.instructions before).length.toUInt64.toNat = (Line.instructions before).length
  targets : ∀ i ∈ p.code, i.op.takesLabel = true → p.labels[i.label]? = some i.arg ∧ i.arg.toNat ≤ p.code.length

namespace OfLines

theorem getElem?_labels (h : p.OfLines ls) : p.labels[label]? = some pc ↔ (label, pc) ∈ Line.places 0 ls := by
  rw [← h.labels.mem_iff, Std.ExtTreeMap.mem_toList_iff_getElem?_eq_some]

theorem distinct (h : p.OfLines ls) : Line.Distinct ls :=
  Line.nodup_places_iff.mp ((h.labels.map Prod.fst).nodup_iff.mp (nodup_map_fst_toList p.labels))

theorem defined (h : p.OfLines ls) (hi : .instruction i ∈ ls) (htakes : i.op.takesLabel = true) :
    .label i.label ∈ ls := by
  obtain ⟨n, hn⟩ := List.mem_iff_getElem?.mp (Line.mem_instructions.mpr hi)
  obtain ⟨j, -, hj⟩ := exists_getElem?_of_forall₂ h.code hn
  obtain ⟨place, hplace, -⟩ := (resolve_eq_ok.mp hj).1 htakes
  exact Line.label_mem_of_mem_places (h.getElem?_labels.mp hplace)

theorem code_getElem? (h : p.OfLines ls) {before after : List Line} (hls : ls = before ++ .instruction i :: after) :
    ∃ i', p.code[(Line.instructions before).length]? = some i' ∧ i'.op = i.op ∧ i'.label = i.label ∧
      (i.op.takesLabel = false → i'.arg = i.arg) := by
  have hi : (Line.instructions ls)[(Line.instructions before).length]? = some i := by
    rw [hls, Line.instructions_append, List.getElem?_append_right (Nat.le_refl _), Nat.sub_self]
    rfl
  obtain ⟨i', hi', hresolve⟩ := exists_getElem?_of_forall₂ h.code hi
  obtain ⟨htarget, hplain⟩ := resolve_eq_ok.mp hresolve
  refine ⟨i', hi', ?_⟩
  cases htakes : i.op.takesLabel with
  | false => simp [hplain htakes]
  | true =>
    obtain ⟨place, -, rfl⟩ := htarget htakes
    simp

theorem targets (h : p.OfLines ls) (hj : j ∈ p.code) (htakes : j.op.takesLabel = true) :
    p.labels[j.label]? = some j.arg ∧ j.arg.toNat ≤ p.code.length := by
  obtain ⟨i, -, hresolve⟩ := exists_mem_of_forall₂ h.code hj
  obtain ⟨htarget, hplain⟩ := resolve_eq_ok.mp hresolve
  cases hi : i.op.takesLabel with
  | false =>
    rw [hplain hi, hi] at htakes
    cases htakes
  | true =>
    obtain ⟨place, hplace, rfl⟩ := htarget hi
    have hle := Line.toNat_le_of_mem_places (h.getElem?_labels.mp hplace)
    rw [Nat.zero_add, h.code.length_eq] at hle
    exact ⟨hplace, hle⟩

theorem transcribes (h : p.OfLines ls) (hls : List.Forall₂ Line.Accepted ls (text.splitOn lineFeed)) :
    Transcribes text ls p where
  size := h.code.length_eq.symm
  code _ _ _ := h.code_getElem?
  labels label pc := by
    rw [h.getElem?_labels, Line.mem_places_iff]
    simp only [Nat.zero_add]
  counted htext before label after heq := by
    have hlines := Text.length_splitOn_le text lineFeed
    have hcount := Line.length_instructions_le before
    rw [← hls.length_eq, heq, List.length_append, List.length_cons] at hlines
    exact UInt64.toNat_ofNat_of_lt' (by omega)
  targets _ := h.targets

end OfLines

theorem Grammatical.exists_ofLines (h : Grammatical text ls) (name : String) :
    ∃ p : Program, p.name = name ∧ p.OfLines ls := by
  obtain ⟨labels, hlabels⟩ := exists_labels (Line.nodup_places_iff (n := 0).mpr h.distinct)
  have hresolve : ∀ i ∈ Line.instructions ls, ∃ j, resolve labels i = .ok j := by
    intro i hi
    cases htakes : i.op.takesLabel with
    | false => exact ⟨i, resolve_eq_ok.mpr ⟨by simp [htakes], fun _ => rfl⟩⟩
    | true =>
      obtain ⟨before, after, hls⟩ := List.append_of_mem (h.defined i (Line.mem_instructions.mp hi) htakes)
      have hplace := Line.mem_places_iff (n := 0).mpr ⟨before, after, hls, rfl⟩
      rw [← hlabels.mem_iff, Std.ExtTreeMap.mem_toList_iff_getElem?_eq_some] at hplace
      exact ⟨_, resolve_eq_ok.mpr ⟨fun _ => ⟨_, hplace, rfl⟩, by simp [htakes]⟩⟩
  obtain ⟨code, hcode⟩ := exists_forall₂ hresolve
  exact ⟨{ name, code, labels }, rfl, hcode, hlabels⟩

/-- A text is read if and only if it is grammatical, and what it is read as has the instructions of its lines in their
    order, the labels of its lines at the number of instructions above them, and each label that an instruction goes to
    resolved. -/
theorem reads_grammatical_texts (name : String) (text : Bytes) :
    ((∃ p, parse name text = .ok p) ↔ ∃ ls, Grammatical text ls) ∧
      ∀ p ls, parse name text = .ok p → Grammatical text ls → p.name = name ∧ Transcribes text ls p := by
  constructor
  · constructor
    · rintro ⟨p, hp⟩
      obtain ⟨-, ls, hls, hof⟩ := parse_eq_ok_iff_splitOn.mp hp
      exact ⟨ls, hls, hof.distinct, fun i => hof.defined⟩
    · rintro ⟨ls, h⟩
      obtain ⟨p, hname, hof⟩ := h.exists_ofLines name
      exact ⟨p, parse_eq_ok_iff_splitOn.mpr ⟨hname, ls, h.lines, hof⟩⟩
  · intro p ls hp h
    obtain ⟨hname, ls', hls', hof⟩ := parse_eq_ok_iff_splitOn.mp hp
    obtain rfl := List.left_unique_forall₂' Line.accepted_leftUnique hls' h.lines
    exact ⟨hname, hof.transcribes h.lines⟩

/-- A label is used above the line that defines it, and stands behind the last instruction. -/
def forwardText : Bytes := utf8 "Jump end ; skip\r\n again :\n\telapse 0x1_0\nbranch again\nend:"

/-- The label `end` stands for 3. In another text the colon makes the first line a label, which has a blank in it. -/
theorem reads_forward_jump :
    (∃ p ls, parse "forward" forwardText = .ok p ∧ Grammatical forwardText ls ∧ Transcribes forwardText ls p ∧
      p.code = [{ op := .jump, arg := 3, label := utf8 "end" }, { op := .elapse, arg := 16 },
        { op := .branch, arg := 1, label := utf8 "again" }]) ∧
      ¬ ∃ ls, Grammatical (utf8 "jump end:\nend:\n") ls := by
  obtain ⟨hreads, hall⟩ := reads_grammatical_texts "forward" forwardText
  have heval : (parse "forward" forwardText).toOption.map Program.code =
      some [{ op := .jump, arg := 3, label := utf8 "end" }, { op := .elapse, arg := 16 },
        { op := .branch, arg := 1, label := utf8 "again" }] := by decide +kernel
  constructor
  · cases hp : parse "forward" forwardText with
    | error e =>
      rw [hp] at heval
      cases heval
    | ok p =>
      rw [hp] at heval
      obtain ⟨ls, hls⟩ := hreads.mp ⟨p, hp⟩
      exact ⟨p, ls, rfl, hls, (hall p ls hp hls).2, Option.some.inj heval⟩
  · intro h
    obtain ⟨p, hp⟩ := (reads_grammatical_texts "forward" (utf8 "jump end:\nend:\n")).1.mpr h
    have hrefused : (parse "forward" (utf8 "jump end:\nend:\n")).toOption.isNone = true := by decide +kernel
    rw [hp] at hrefused
    cases hrefused

end Program

end CacheTiming
