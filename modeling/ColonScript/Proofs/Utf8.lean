import ColonScript.Proofs.Position
import ColonScript.Lexeme.Form

/-!
# Texts by bytes

A text can be reached by the offsets of its bytes in UTF-8.  This file relates what is found there
to the characters of the text.

A byte is looked at as the character with the same code, called a unit of the text.  An ASCII
character has one unit, itself, and any other character has only units outside of ASCII
(`units_of_ascii`, `not_ascii_of_mem_units`).  So a classification that does
not tell apart the characters outside of ASCII can be made on units (`Blunt`).

`At source i cs` says that the byte `i` of a source is where the characters `cs` begin, up to the
end of the source.  From such a place, units are counted as characters are (`At.count_eq`), and
parts can be cut out by their offsets (`At.cut_eq`).
-/

namespace ColonScript.Text

/-! ### Units of a character -/

/-- The bytes of a character, each as the character with its code. -/
def units (c : Char) : List Char :=
  (String.utf8EncodeChar c).map Char.ofUInt8

/-- There are as many units as bytes. -/
lemma length_units (c : Char) : (units c).length = c.utf8Size := by
  simp [units]

lemma units_ne_nil (c : Char) : units c ≠ [] := by
  have hpos := c.utf8Size_pos
  rw [← List.length_pos_iff, length_units]
  exact hpos

/-- A unit has the code of its byte. -/
lemma toNat_ofUInt8 (b : UInt8) : (Char.ofUInt8 b).toNat = b.toNat := by
  simp [Char.ofUInt8, Char.toNat]

/-- An ASCII character has one unit, which is the character itself. -/
lemma units_of_ascii {c : Char} (hc : c.toNat < 128) : units c = [c] := by
  have hsmall : c.val.toNat ≤ 127 := Nat.le_of_lt_succ hc
  have hbyte : (UInt8.ofNat c.val.toNat).toNat = c.toNat := by
    rw [UInt8.toNat_ofNat']
    exact Nat.mod_eq_of_lt (by omega)
  have hsame : Char.ofUInt8 (UInt8.ofNat c.val.toNat) = c := by
    rw [← Char.toNat_inj, toNat_ofUInt8, hbyte]
  simp only [units, String.utf8EncodeChar, hsmall, if_true, List.map_cons, List.map_nil, hsame]

/-- An ASCII character has one byte. -/
lemma utf8Size_of_ascii {c : Char} (hc : c.toNat < 128) : c.utf8Size = 1 := by
  rw [← length_units, units_of_ascii hc]
  rfl

/-- An ASCII character moves an offset by one. -/
lemma add_byteSize_cons {c : Char} (hc : c.toNat < 128) (i : ℕ) (cs : List Char) :
    i + byteSize (c :: cs) = i + 1 + byteSize cs := by
  rw [byteSize_cons, utf8Size_of_ascii hc, Nat.add_assoc]

/-- The bytes of a character outside of ASCII are outside of ASCII. -/
lemma le_of_mem_utf8EncodeChar {c : Char} (hc : 128 ≤ c.toNat) {b : UInt8}
    (hb : b ∈ String.utf8EncodeChar c) : 128 ≤ b.toNat := by
  have hlarge : ¬ c.val.toNat ≤ 127 := Nat.not_le.2 hc
  simp only [String.utf8EncodeChar, hlarge, if_false] at hb
  split_ifs at hb <;> simp only [List.mem_cons, List.not_mem_nil, or_false] at hb
  · rcases hb with rfl | rfl <;> (rw [UInt8.toNat_ofNat']; omega)
  · rcases hb with rfl | rfl | rfl <;> (rw [UInt8.toNat_ofNat']; omega)
  · rcases hb with rfl | rfl | rfl | rfl <;> (rw [UInt8.toNat_ofNat']; omega)

/-- The units of a character outside of ASCII are outside of ASCII. -/
lemma not_ascii_of_mem_units {c u : Char} (hc : 128 ≤ c.toNat) (hu : u ∈ units c) :
    128 ≤ u.toNat := by
  obtain ⟨b, hb, rfl⟩ := List.mem_map.1 hu
  rw [toNat_ofUInt8]
  exact le_of_mem_utf8EncodeChar hc hb

/-- A classification of characters that does not tell apart those outside of ASCII. -/
def Blunt {α : Type} (p : Char → α) : Prop :=
  ∀ c d : Char, 128 ≤ c.toNat → 128 ≤ d.toNat → p c = p d

/-- A class of ASCII characters does not tell apart the others. -/
lemma blunt_of_ascii {p : Char → Bool} (hp : ∀ c, p c = true → c.toNat < 128) : Blunt p := by
  have hout : ∀ c, 128 ≤ c.toNat → p c = false := by
    intro c hc
    by_contra hin
    have hsmall := hp c (by simpa using hin)
    omega
  intro c d hc hd
  rw [hout c hc, hout d hd]

/-- The units of a character belong to its class. -/
lemma Blunt.unit_eq {α : Type} {p : Char → α} (hp : Blunt p) {c u : Char} (hu : u ∈ units c) :
    p u = p c := by
  by_cases hc : c.toNat < 128
  · rw [units_of_ascii hc] at hu
    rw [List.mem_singleton.1 hu]
  · have hlarge : 128 ≤ c.toNat := Nat.le_of_not_lt hc
    exact hp u c (not_ascii_of_mem_units hlarge hu) hlarge

/-- An ASCII character is not among the units of another character. -/
lemma ne_of_mem_units {a c u : Char} (ha : a.toNat < 128) (hc : c ≠ a) (hu : u ∈ units c) :
    u ≠ a := by
  rintro rfl
  by_cases hsmall : c.toNat < 128
  · rw [units_of_ascii hsmall] at hu
    exact hc (List.mem_singleton.1 hu).symm
  · have hlarge := not_ascii_of_mem_units (Nat.le_of_not_lt hsmall) hu
    omega

/-- As many units as bytes of characters belong to a class from the front on. -/
lemma Blunt.length_takeWhile_units {p : Char → Bool} (hp : Blunt p) (cs : List Char) :
    ((cs.flatMap units).takeWhile p).length = byteSize (cs.takeWhile p) := by
  induction cs with
  | nil => rfl
  | cons c more ih =>
    rw [List.flatMap_cons]
    by_cases hc : p c = true
    · have hall : ∀ u ∈ units c, p u = true := fun u hu => by rw [hp.unit_eq hu, hc]
      rw [List.takeWhile_append_of_pos hall, List.length_append, length_units, ih,
        List.takeWhile_cons_of_pos hc, byteSize_cons]
    · obtain ⟨u, others, hunits⟩ := List.exists_cons_of_ne_nil (units_ne_nil c)
      have hu : ¬ p u = true := by
        rw [hp.unit_eq (c := c) (by simp [hunits])]
        exact hc
      rw [hunits, List.cons_append, List.takeWhile_cons_of_neg hu, List.takeWhile_cons_of_neg hc]
      rfl

/-! ### Reading a source by offsets -/

/-- What must not happen when a text is read by the offsets of its bytes. -/
inductive Breach where
  /-- A byte was asked for where the text has none. -/
  | outside (i : ℕ)
  /-- A part was cut out that does not begin and end between characters. -/
  | torn (start stop : ℕ)
  /-- A step did not go forward. -/
  | stalled (i : ℕ)
deriving DecidableEq, Repr

/-- The unit at an offset, if there is one. -/
def unit? (source : String) (i : ℕ) : Option Char :=
  source.toByteArray.data.toList[i]?.map Char.ofUInt8

/-- A unit is found only inside the source. -/
lemma lt_of_unit? {source : String} {i : ℕ} {u : Char} (h : unit? source i = some u) :
    i < source.utf8ByteSize := by
  obtain ⟨b, hb, -⟩ := Option.map_eq_some_iff.1 h
  exact (List.getElem?_eq_some_iff.1 hb).1

/-- The number of units of one class from an offset on. -/
def count (source : String) (p : Char → Bool) (i : ℕ) : ℕ :=
  (((source.toByteArray.data.toList.drop i).map Char.ofUInt8).takeWhile p).length

/-- The part of a source between two offsets, both of which must lie between characters. -/
def cut (source : String) (start stop : ℕ) : Except Breach String :=
  if h : start ≤ stop ∧ String.Pos.Raw.IsValid source ⟨start⟩ ∧
      String.Pos.Raw.IsValid source ⟨stop⟩ then
    .ok (source.extract ⟨⟨start⟩, h.2.1⟩ ⟨⟨stop⟩, h.2.2⟩)
  else .error (.torn start stop)

/-- The characters that stand in a source from an offset on. -/
def At (source : String) (i : ℕ) (cs : List Char) : Prop :=
  ∃ before, source.toList = before ++ cs ∧ i = byteSize before

/-- The bytes of a text are those of its characters. -/
lemma toList_toByteArray (source : String) :
    source.toByteArray.data.toList = source.toList.flatMap String.utf8EncodeChar := by
  conv_lhs => rw [← String.ofList_toList (s := source)]
  rw [String.toByteArray_ofList, List.utf8Encode, List.toList_data_toByteArray]

/-- The units of a text are those of its characters. -/
lemma map_toByteArray (source : String) :
    source.toByteArray.data.toList.map Char.ofUInt8 = source.toList.flatMap units := by
  rw [toList_toByteArray, List.map_flatMap]
  rfl

lemma length_flatMap_utf8EncodeChar (cs : List Char) :
    (cs.flatMap String.utf8EncodeChar).length = byteSize cs := by
  simp [byteSize, List.length_flatMap]

/-- The size of a text is that of its characters. -/
lemma utf8ByteSize_eq (source : String) : source.utf8ByteSize = byteSize source.toList := by
  rw [← length_flatMap_utf8EncodeChar, ← toList_toByteArray]
  rfl

namespace At

variable {source : String} {i : ℕ} {cs : List Char}

lemma start (source : String) : At source 0 source.toList :=
  ⟨[], rfl, rfl⟩

/-- What follows a part stands where the part ends. -/
lemma append {text rest : List Char} (h : At source i (text ++ rest)) :
    At source (i + byteSize text) rest := by
  obtain ⟨before, hsource, rfl⟩ := h
  exact ⟨before ++ text, by rw [hsource, List.append_assoc], (byteSize_append _ _).symm⟩

/-- What follows a character stands after its bytes. -/
lemma next {c : Char} (h : At source i (c :: cs)) : At source (i + c.utf8Size) cs := by
  have hfront : At source i ([c] ++ cs) := h
  exact hfront.append

/-- What follows an ASCII character stands one byte later. -/
lemma tail {c : Char} (h : At source i (c :: cs)) (hc : c.toNat < 128) : At source (i + 1) cs := by
  have hnext := h.next
  rwa [utf8Size_of_ascii hc] at hnext

/-- The rest of a source has the bytes that are left. -/
lemma add_byteSize (h : At source i cs) : i + byteSize cs = source.utf8ByteSize := by
  obtain ⟨before, hsource, rfl⟩ := h
  rw [utf8ByteSize_eq, hsource, byteSize_append]

/-- The units from an offset on are those of the characters that stand there. -/
lemma map_drop (h : At source i cs) :
    (source.toByteArray.data.toList.drop i).map Char.ofUInt8 = cs.flatMap units := by
  obtain ⟨before, hsource, rfl⟩ := h
  have hlength : (before.flatMap units).length = byteSize before := by
    simp [byteSize, List.length_flatMap, length_units]
  rw [List.map_drop, map_toByteArray, hsource, List.flatMap_append, ← hlength, List.drop_left]

/-- The units from an offset on, one by one. -/
lemma unit?_add (h : At source i cs) (j : ℕ) :
    unit? source (i + j) = (cs.flatMap units)[j]? := by
  rw [← h.map_drop, List.getElem?_map, List.getElem?_drop]
  rfl

/-- There is no unit at the end. -/
lemma unit?_nil (h : At source i []) : unit? source i = none :=
  h.unit?_add 0

/-- The units from an offset on start with those of the character there. -/
lemma exists_unit? {c : Char} (h : At source i (c :: cs)) {j : ℕ} (hj : j < c.utf8Size) :
    ∃ u ∈ units c, unit? source (i + j) = some u := by
  rw [← length_units] at hj
  refine ⟨(units c)[j], List.getElem_mem hj, ?_⟩
  rw [h.unit?_add, List.flatMap_cons, List.getElem?_append_left hj, List.getElem?_eq_getElem hj]

/-- The unit where a character begins. -/
lemma exists_first_unit? {c : Char} (h : At source i (c :: cs)) :
    ∃ u ∈ units c, unit? source i = some u :=
  h.exists_unit? c.utf8Size_pos

/-- An ASCII character is found as it is. -/
lemma unit?_cons {c : Char} (h : At source i (c :: cs)) (hc : c.toNat < 128) :
    unit? source i = some c := by
  obtain ⟨u, hu, hunit⟩ := h.exists_first_unit?
  rw [units_of_ascii hc] at hu
  rw [hunit, List.mem_singleton.1 hu]

/-- An ASCII character is found only where it stands. -/
lemma unit?_eq_some_iff {a : Char} (h : At source i cs) (ha : a.toNat < 128) :
    unit? source i = some a ↔ ∃ rest, cs = a :: rest := by
  cases cs with
  | nil => simp [h.unit?_nil]
  | cons c more =>
    by_cases hc : c = a
    · subst hc
      simp [h.unit?_cons ha]
    · obtain ⟨u, hu, hunit⟩ := h.exists_first_unit?
      simp [hunit, hc, ne_of_mem_units ha hc hu]

/-- A walk that makes the same step at every unit of a character goes over the character. -/
lemma walk {α : Type} {f : ℕ → α} {c : Char} (h : At source i (c :: cs))
    (hstep : ∀ j, ∀ u ∈ units c, unit? source j = some u → f j = f (j + 1)) :
    f i = f (i + c.utf8Size) := by
  suffices hpart : ∀ n ≤ c.utf8Size, f i = f (i + n) from hpart _ le_rfl
  intro n
  induction n with
  | zero => intro _; rfl
  | succ n ih =>
    intro hn
    obtain ⟨u, hu, hunit⟩ := h.exists_unit? hn
    rw [ih (Nat.le_of_lt hn), hstep _ u hu hunit, Nat.add_assoc]

/-- The unit at an offset belongs to the class of the character there. -/
lemma map_unit? {α : Type} {p : Char → α} (h : At source i cs) (hp : Blunt p) :
    (unit? source i).map p = cs.head?.map p := by
  cases cs with
  | nil => rw [h.unit?_nil]; rfl
  | cons c more =>
    obtain ⟨u, hu, hunit⟩ := h.exists_first_unit?
    rw [hunit]
    exact congrArg some (hp.unit_eq hu)

/-- Units of a class are counted as characters. -/
lemma count_eq (h : At source i cs) {p : Char → Bool} (hp : Blunt p) :
    count source p i = byteSize (cs.takeWhile p) := by
  rw [count, h.map_drop, hp.length_takeWhile_units]

/-- A place where characters begin lies between characters. -/
lemma isValid (h : At source i cs) : String.Pos.Raw.IsValid source ⟨i⟩ := by
  obtain ⟨before, hsource, rfl⟩ := h
  rw [String.Pos.Raw.isValid_iff_exists_append]
  refine ⟨String.ofList before, String.ofList cs, ?_, ?_⟩
  · rw [← String.ofList_append, ← hsource, String.ofList_toList]
  · rw [String.rawEndPos, utf8ByteSize_eq, String.toList_ofList]

/-- The bytes between the ends of some characters are theirs. -/
lemma bytes_extract {text rest : List Char} (h : At source i (text ++ rest)) :
    source.toByteArray.data.toList.extract i (i + byteSize text) =
      text.flatMap String.utf8EncodeChar := by
  obtain ⟨before, hsource, rfl⟩ := h
  rw [toList_toByteArray, hsource, List.extract_eq_take_drop,
    ← length_flatMap_utf8EncodeChar before, ← length_flatMap_utf8EncodeChar text]
  simp

/-- Characters can be cut out where they stand. -/
lemma cut_eq {text rest : List Char} (h : At source i (text ++ rest)) :
    cut source i (i + byteSize text) = .ok (String.ofList text) := by
  rw [cut, dif_pos ⟨Nat.le_add_right _ _, h.isValid, h.append.isValid⟩]
  apply congrArg
  rw [← String.toByteArray_inj, String.toByteArray_extract]
  apply ByteArray.ext
  rw [← Array.toList_inj, ByteArray.data_extract, Array.toList_extract, h.bytes_extract,
    toList_toByteArray, String.toList_ofList]

/-- Between the bytes of one character nothing can be cut. -/
example : cut "é" 0 1 = .error (.torn 0 1) := by decide

/-! ### Runs -/

section Run

variable {p : Char → Bool}

/-- Units of a class are found where a character of the class stands. -/
lemma count_pos_iff (h : At source i cs) (hp : Blunt p) :
    0 < count source p i ↔ cs.takeWhile p ≠ [] := by
  rw [h.count_eq hp, Nat.pos_iff_ne_zero, Ne, byteSize_eq_zero_iff]

/-- What follows a run stands after its units. -/
lemma dropWhile (h : At source i cs) (hp : Blunt p) :
    At source (i + count source p i) (cs.dropWhile p) := by
  rw [h.count_eq hp]
  rw [← List.takeWhile_append_dropWhile (p := p) (l := cs)] at h
  exact h.append

/-- A run can be cut out by its units. -/
lemma cut_run (h : At source i cs) (hp : Blunt p) :
    cut source i (i + count source p i) = .ok (String.ofList (cs.takeWhile p)) := by
  rw [h.count_eq hp]
  rw [← List.takeWhile_append_dropWhile (p := p) (l := cs)] at h
  exact h.cut_eq

end Run

end At

end ColonScript.Text
