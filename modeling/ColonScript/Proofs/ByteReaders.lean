import ColonScript.Proofs.Grammar
import ColonScript.Proofs.Utf8

/-!
# Reading forms by bytes

The readers of `Lexeme.form?` go over a list of characters.  Here each has a counterpart that goes
over the bytes of a source: it looks at single units, counts units of a class, and cuts out names
and payloads between two offsets.  Such a reader can go wrong.  It can ask for a byte that the
source does not have, or cut in the middle of a character, and both end with a `Breach`.

Started between two characters it does not go wrong, and finds what the reader of characters finds
there (`form_eq`).  Wherever a reader looks at a class of units, the class does not tell apart the
characters outside of ASCII, so no reader stops inside of a character.
-/

namespace ColonScript.ByteScan

open Text Lexeme

/-! ### Readers by offsets -/

/-- What is read from an offset on: the offset after it and its value, if there is something. -/
abbrev Reading (α : Type) := Except Breach (Option (ℕ × α))

/-- The first of two readings, or the second where the first finds nothing. -/
def firstOf {α : Type} (first second : Reading α) : Reading α :=
  first.bind fun found => if found.isSome then .ok found else second

/-- The same reading with another value. -/
def mapValue {α β : Type} (f : α → β) (reading : Reading α) : Reading β :=
  reading.map (Option.map (Prod.map id f))

/-- Reads a slot: digits that fit in 64 bits, or `-1`. -/
def slotId (source : String) (i : ℕ) : Reading SlotId :=
  let digits := count source Char.isDigit i
  if 0 < digits then
    (cut source i (i + digits)).map fun written =>
      if Decimal.value written.toList < UInt64.size then
        some (i + digits, .index (UInt64.ofNat (Decimal.value written.toList)))
      else none
  else if source.utf8ByteSize < i then .error (.outside i)
  else if unit? source i = some '-' ∧ unit? source (i + 1) = some '1' then
    .ok (some (i + 2, .argCount))
  else .ok none

/-- Reads a sigil and a slot. -/
def sigilSlot (source : String) (parent : Bool) (i : ℕ) : Reading Reference :=
  match (unit? source i).map sigil? with
  | some (some sigil) => mapValue (⟨sigil, ·, parent⟩) (slotId source (i + 1))
  | _ => .ok none

/-- Reads a reference. -/
def reference (source : String) (i : ℕ) : Reading Reference :=
  if unit? source i = some '^' then sigilSlot source true (i + 1) else sigilSlot source false i

/-- Reads the longest run of units of one class, if it is not empty. -/
def run (source : String) (kind : ArgKind) (p : Char → Bool) (i : ℕ) : Reading Argument :=
  let taken := count source p i
  if 0 < taken then
    (cut source i (i + taken)).map fun payload => some (i + taken, ⟨kind, payload⟩)
  else .ok none

/-- The offset after the quote that closes a text. -/
def closing? (source : String) (i : ℕ) : Option ℕ :=
  match _found : unit? source i with
  | none => none
  | some '"' => some (i + 1)
  | some '\\' =>
    if (unit? source (i + 1)).map Quoted.isEscaped = some true then closing? source (i + 2)
    else none
  | some _ => closing? source (i + 1)
termination_by source.utf8ByteSize - i
decreasing_by
  all_goals
    have hlt := lt_of_unit? _found
    omega

/-- Reads a quoted text. -/
def quoted (source : String) (i : ℕ) : Reading Argument :=
  if unit? source i = some '"' then
    match closing? source (i + 1) with
    | some stop =>
      (cut source (i + 1) (stop - 1)).map fun payload => some (stop, ⟨.text, payload⟩)
    | none => .ok none
  else .ok none

/-- Reads an index: a tilde and digits. -/
def index (source : String) (i : ℕ) : Reading Argument :=
  if unit? source i = some '~' then run source .index Char.isDigit (i + 1) else .ok none

/-- Reads digits with a point, and with a digit on at least one side of it. -/
def pointed (source : String) (i : ℕ) : Reading Argument :=
  let whole := count source Char.isDigit i
  let fraction := count source Char.isDigit (i + whole + 1)
  if unit? source (i + whole) = some '.' ∧ 0 < whole + fraction then
    (cut source i (i + whole + 1 + fraction)).map fun payload =>
      some (i + whole + 1 + fraction, ⟨.dynamic, payload⟩)
  else .ok none

/-- Reads an argument of the first kind that applies. -/
def argument (source : String) (i : ℕ) : Reading Argument :=
  [quoted source i, run source .word isWordChar i, index source i, pointed source i,
    run source .static Char.isDigit i, run source .unknown isArgChar i].foldl firstOf (.ok none)

/-- Reads a command. -/
def command (source : String) (i : ℕ) : Reading Command :=
  if (unit? source i).map Char.isAlpha = some true then
    let stop := i + 1 + count source isWordChar (i + 1)
    (cut source i stop).bind fun spelled =>
      let name := Grammar.nameOf spelled.toList
      if unit? source stop = some '@' then
        firstOf (mapValue (fun a => ⟨name, some a⟩) (argument source (stop + 1)))
          (.ok (some (stop + 1, ⟨name, none⟩)))
      else .ok (some (stop, ⟨name, none⟩))
  else .ok none

/-- Reads what makes up a token after its colon. -/
def tokenKind (source : String) (i : ℕ) : Reading TokenKind :=
  firstOf (mapValue .reference (reference source i)) (mapValue .command (command source i))

/-- Reads a whole form, from its colon on. -/
def form (source : String) (i : ℕ) : Reading (Option TokenKind) :=
  if unit? source (i + 1) = some ':' then mapValue (fun _ => none) (tokenKind source (i + 2))
  else mapValue some (tokenKind source (i + 1))

/-! ### Classes of characters

No class that a reader asks for tells apart the characters outside of ASCII.  All of them can stand
in an unquoted argument, and they belong to no other class. -/

lemma toNat_lt_of_isDigit {c : Char} (hc : c.isDigit = true) : c.toNat < 128 := by
  simp only [Char.isDigit, Bool.and_eq_true, decide_eq_true_eq, ge_iff_le,
    UInt32.le_iff_toNat_le] at hc
  exact Nat.lt_of_le_of_lt hc.2 (by decide)

lemma toNat_lt_of_isAlpha {c : Char} (hc : c.isAlpha = true) : c.toNat < 128 := by
  simp only [Char.isAlpha, Char.isUpper, Char.isLower, Bool.or_eq_true, Bool.and_eq_true,
    decide_eq_true_eq, ge_iff_le, UInt32.le_iff_toNat_le] at hc
  rcases hc with hc | hc
  · exact Nat.lt_of_le_of_lt hc.2 (by decide)
  · exact Nat.lt_of_le_of_lt hc.2 (by decide)

lemma toNat_lt_of_isWordChar {c : Char} (hc : isWordChar c = true) : c.toNat < 128 := by
  rcases Bool.or_eq_true _ _ |>.mp hc with hc | hc
  · exact toNat_lt_of_isAlpha hc
  · rw [beq_iff_eq.1 hc]
    decide

lemma toNat_lt_of_isEscaped {c : Char} (hc : Quoted.isEscaped c = true) : c.toNat < 128 := by
  rcases Bool.or_eq_true _ _ |>.mp hc with hc | hc
  · rw [beq_iff_eq.1 hc]
    decide
  · rw [beq_iff_eq.1 hc]
    decide

lemma blunt_isDigit : Blunt Char.isDigit := blunt_of_ascii fun _ => toNat_lt_of_isDigit

lemma blunt_isAlpha : Blunt Char.isAlpha := blunt_of_ascii fun _ => toNat_lt_of_isAlpha

lemma blunt_isWordChar : Blunt isWordChar := blunt_of_ascii fun _ => toNat_lt_of_isWordChar

lemma blunt_isArgChar : Blunt isArgChar := by
  have hin : ∀ c : Char, 128 ≤ c.toNat → isArgChar c = true := by
    intro c hc
    by_contra hout
    have hsmall : c.toNat < 128 := by
      simp only [isArgChar, isAsciiBlank, Bool.and_eq_true, bne_iff_ne, Bool.not_eq_true',
        Bool.or_eq_false_iff, beq_eq_false_iff_ne, not_and_or, not_not] at hout
      rcases hout with rfl | ((((rfl | rfl) | rfl) | rfl) | rfl) | rfl <;> decide
    omega
  intro c d hc hd
  rw [hin c hc, hin d hd]

lemma blunt_isEscaped : Blunt Quoted.isEscaped := blunt_of_ascii fun _ => toNat_lt_of_isEscaped

lemma blunt_sigil? : Blunt sigil? := by
  have hnone : ∀ c : Char, 128 ≤ c.toNat → sigil? c = none := by
    intro c hc
    unfold sigil?
    split_ifs with htilde hand
    · rw [htilde] at hc
      exact absurd hc (by decide)
    · rw [hand] at hc
      exact absurd hc (by decide)
    · rfl
  intro c d hc hd
  rw [hnone c hc, hnone d hd]

/-! ### Readers find the same by offsets

Started at a place between characters, each reader finds what its counterpart finds in the
characters that stand there. -/

/-- What a reader of characters finds, as it is found from an offset on. -/
def placed {α : Type} (i : ℕ) (found : Option (Match α)) : Reading α :=
  .ok (found.map fun m => (i + byteSize m.text, m.value))

/-- Of two readings at one place the first that finds something counts. -/
lemma firstOf_placed {α : Type} (i : ℕ) (first second : Option (Match α)) :
    firstOf (placed i first) (placed i second) = placed i (first.or second) := by
  cases first <;> rfl

lemma firstOf_none {α : Type} (i : ℕ) (second : Reading α) :
    firstOf (placed i none) second = second := rfl

lemma firstOf_some {α : Type} (i : ℕ) (m : Match α) (second : Reading α) :
    firstOf (placed i (some m)) second = .ok (some (i + byteSize m.text, m.value)) := rfl

lemma mapValue_placed {α β : Type} (f : α → β) (i : ℕ) (found : Option (Match α)) :
    mapValue f (placed i found) = placed i (found.map (Match.map f)) := by
  cases found <;> rfl

/-- An ASCII character before a match takes one byte. -/
lemma placed_push {α : Type} {c : Char} (hc : c.toNat < 128) (i : ℕ) (found : Option (Match α)) :
    placed (i + 1) found = placed i (found.map (·.push c)) := by
  cases found with
  | none => rfl
  | some m =>
    simp only [placed, Option.map_some, Match.push, add_byteSize_cons hc]

section

variable {source : String} {i : ℕ} {cs : List Char}

lemma slotId_eq (h : At source i cs) : slotId source i = placed i (slotId? cs) := by
  have hpos := h.count_pos_iff blunt_isDigit
  unfold slotId?
  split
  · next rest hdigits =>
    have hminus := h.unit?_cons (by decide)
    have hone := (h.tail (by decide)).unit?_cons (by decide)
    have hinside := h.add_byteSize
    rw [hdigits] at hpos
    rw [slotId, if_neg (by simpa using hpos), if_neg (by omega), if_pos ⟨hminus, hone⟩]
    rfl
  · next hnot hdigits =>
    have hinside := h.add_byteSize
    rw [hdigits] at hpos
    rw [slotId, if_neg (by simpa using hpos), if_neg (by omega), if_neg]
    · rfl
    · rintro ⟨hminus, hone⟩
      obtain ⟨more, rfl⟩ := (h.unit?_eq_some_iff (by decide)).1 hminus
      have hmore := h.tail (by decide)
      obtain ⟨rest, rfl⟩ := (hmore.unit?_eq_some_iff (by decide)).1 hone
      exact hnot rest rfl
  · next hne _ =>
    rw [slotId, if_pos (hpos.2 hne), h.cut_run blunt_isDigit, h.count_eq blunt_isDigit]
    simp only [Except.map, String.toList_ofList]
    split_ifs <;> rfl

lemma sigilSlot_eq (parent : Bool) (h : At source i cs) :
    sigilSlot source parent i = placed i (sigilSlot? parent cs) := by
  rw [sigilSlot, h.map_unit? blunt_sigil?]
  cases cs with
  | nil => rfl
  | cons c more =>
    rw [List.head?_cons, Option.map_some, sigilSlot?]
    cases hsigil : sigil? c with
    | none => rfl
    | some sigil =>
      have hc : c.toNat < 128 := by
        rw [Grammar.sigil?_eq_some_iff.1 hsigil]
        cases sigil <;> decide
      simp only
      rw [slotId_eq (h.tail hc), mapValue_placed, placed_push hc]
      cases slotId? more <;> rfl

lemma reference_eq (h : At source i cs) : reference source i = placed i (reference? cs) := by
  have hmark := h.unit?_eq_some_iff (a := '^') (by decide)
  unfold reference?
  split
  · next rest =>
    rw [reference, if_pos (hmark.2 ⟨_, rfl⟩), sigilSlot_eq true (h.tail (by decide)),
      placed_push (c := '^') (by decide)]
  · next hnot =>
    rw [reference, if_neg, sigilSlot_eq false h]
    intro hunit
    obtain ⟨rest, rfl⟩ := hmark.1 hunit
    exact hnot rest rfl

lemma run_eq (kind : ArgKind) {p : Char → Bool} (hp : Blunt p) (h : At source i cs) :
    run source kind p i = placed i (run? kind p cs) := by
  have hpos := h.count_pos_iff hp
  unfold run?
  split
  · next hempty =>
    rw [run, if_neg (by simpa [hempty] using hpos)]
    rfl
  · next hne =>
    rw [run, if_pos (hpos.2 hne), h.cut_run hp, h.count_eq hp]
    rfl

lemma index_eq (h : At source i cs) : index source i = placed i (index? cs) := by
  have htilde := h.unit?_eq_some_iff (a := '~') (by decide)
  unfold index?
  split
  · next rest =>
    rw [index, if_pos (htilde.2 ⟨_, rfl⟩), run_eq .index blunt_isDigit (h.tail (by decide)),
      placed_push (c := '~') (by decide)]
  · next hnot =>
    rw [index, if_neg]
    · rfl
    · intro hunit
      obtain ⟨rest, rfl⟩ := htilde.1 hunit
      exact hnot rest rfl

/-- A text that is not closed before the end has no closing quote. -/
lemma closing?_of_none (hunit : unit? source i = none) : closing? source i = none := by
  rw [closing?]
  split <;> simp_all

/-- The first quote without a backslash closes the text. -/
lemma closing?_of_quote (hunit : unit? source i = some '"') :
    closing? source i = some (i + 1) := by
  rw [closing?]
  split <;> simp_all

/-- A backslash and what it escapes are passed over together. -/
lemma closing?_of_slash (hunit : unit? source i = some '\\') :
    closing? source i =
      if (unit? source (i + 1)).map Quoted.isEscaped = some true then closing? source (i + 2)
      else none := by
  rw [closing?]
  split <;> simp_all

/-- A unit that is neither a quote nor a backslash is passed over. -/
lemma closing?_step {u : Char} (hunit : unit? source i = some u) (hu : Quoted.isEscaped u = false) :
    closing? source i = closing? source (i + 1) := by
  have hne : u ≠ '"' ∧ u ≠ '\\' := by simpa [Quoted.isEscaped] using hu
  rw [closing?]
  split
  · next hnone => simp [hunit] at hnone
  · next hquote => simp [hunit, hne.1] at hquote
  · next hslash => simp [hunit, hne.2] at hslash
  · rfl

/-- The closing quote is found after the bytes of the payload. -/
lemma closing?_eq (h : At source i cs) :
    closing? source i =
      (Quoted.closing? cs).map fun found => i + byteSize found.1 + 1 := by
  fun_induction Quoted.closing? cs generalizing i with
  | case1 => rw [closing?_of_none h.unit?_nil]; rfl
  | case2 rest => rw [closing?_of_quote (h.unit?_cons (by decide))]; rfl
  | case3 c rest hescaped ih =>
    -- the escaped character takes one byte, as the backslash does
    have hc := toNat_lt_of_isEscaped hescaped
    have hslash := h.tail (by decide)
    have hnext := hslash.tail hc
    rw [closing?_of_slash (h.unit?_cons (by decide)), hslash.unit?_cons hc, Option.map_some,
      if_pos (congrArg some hescaped), ih hnext]
    cases hfound : Quoted.closing? rest with
    | none => rfl
    | some found =>
      simp only [Option.map_some]
      rw [add_byteSize_cons (by decide), add_byteSize_cons hc]
  | case4 c rest hplain =>
    have hslash := h.tail (by decide)
    rw [closing?_of_slash (h.unit?_cons (by decide)), hslash.map_unit? blunt_isEscaped,
      if_neg (by simpa using hplain)]
    rfl
  | case5 rest _ hpair =>
    obtain rfl : rest = [] := List.eq_nil_iff_forall_not_mem.2 fun d hd => by
      obtain ⟨e, more, rfl⟩ := List.exists_cons_of_ne_nil (List.ne_nil_of_mem hd)
      exact hpair e more rfl rfl
    rw [closing?_of_slash (h.unit?_cons (by decide)), (h.tail (by decide)).unit?_nil]
    rfl
  | case6 c rest hquote hpair hslash ih =>
    have hplain : Quoted.isEscaped c = false := by
      simp only [Quoted.isEscaped, Bool.or_eq_false_iff, beq_eq_false_iff_ne]
      exact ⟨hquote, hslash⟩
    have hwalk : closing? source i = closing? source (i + c.utf8Size) := by
      apply h.walk
      intro j u hu hunit
      exact closing?_step hunit (by rw [blunt_isEscaped.unit_eq hu, hplain])
    rw [hwalk, ih h.next]
    cases Quoted.closing? rest with
    | none => rfl
    | some found =>
      simp only [Option.map_some, byteSize_cons]
      congr 1
      omega

lemma quoted_eq (h : At source i cs) : quoted source i = placed i (quoted? cs) := by
  have hquote := h.unit?_eq_some_iff (a := '"') (by decide)
  unfold quoted?
  split
  · next rest =>
    have hrest := h.tail (by decide)
    rw [quoted, if_pos (hquote.2 ⟨_, rfl⟩), closing?_eq hrest]
    cases hfound : Quoted.closing? rest with
    | none => rfl
    | some found =>
      obtain ⟨payload, after⟩ := found
      rw [← Quoted.append_of_closing? hfound] at hrest
      simp only [Option.map_some, Nat.add_sub_cancel]
      rw [hrest.cut_eq]
      simp only [Except.map, placed, Option.map_some, List.cons_append]
      rw [add_byteSize_cons (by decide), byteSize_append, ← Nat.add_assoc,
        add_byteSize_cons (by decide)]
      rfl
  · next hnot =>
    rw [quoted, if_neg]
    · rfl
    · intro hunit
      obtain ⟨rest, rfl⟩ := hquote.1 hunit
      exact hnot rest rfl

lemma pointed_eq (h : At source i cs) : pointed source i = placed i (pointed? cs) := by
  have hwhole := h.dropWhile blunt_isDigit
  have hpoint := hwhole.unit?_eq_some_iff (a := '.') (by decide)
  have hcount := h.count_eq blunt_isDigit
  unfold pointed?
  simp only
  split
  · next rest hrest =>
    rw [hrest] at hwhole
    have hafter := hwhole.tail (by decide)
    have hfraction := hafter.count_eq blunt_isDigit
    have hlength : i + count source Char.isDigit i + 1 +
        count source Char.isDigit (i + count source Char.isDigit i + 1) =
          i + byteSize (cs.takeWhile Char.isDigit ++ '.' :: rest.takeWhile Char.isDigit) := by
      rw [hfraction, hcount, byteSize_append, ← Nat.add_assoc, add_byteSize_cons (by decide)]
    have htext : At source i ((cs.takeWhile Char.isDigit ++ '.' :: rest.takeWhile Char.isDigit) ++
        rest.dropWhile Char.isDigit) := by
      rw [List.append_assoc, List.cons_append, List.takeWhile_append_dropWhile, ← hrest,
        List.takeWhile_append_dropWhile]
      exact h
    have hsome : 0 < count source Char.isDigit i +
        count source Char.isDigit (i + count source Char.isDigit i + 1) ↔
          ¬ ((cs.takeWhile Char.isDigit).isEmpty &&
            (rest.takeWhile Char.isDigit).isEmpty) = true := by
      rw [hfraction, hcount, Bool.and_eq_true, List.isEmpty_iff, List.isEmpty_iff,
        ← byteSize_eq_zero_iff, ← byteSize_eq_zero_iff]
      omega
    simp only [pointed, hpoint.2 ⟨rest, hrest⟩, true_and, hsome, hlength, htext.cut_eq]
    split_ifs <;> rfl
  · next hnot =>
    rw [pointed, if_neg]
    · rfl
    · rintro ⟨hunit, -⟩
      obtain ⟨rest, hrest⟩ := hpoint.1 hunit
      exact hnot rest hrest

lemma argument_eq (h : At source i cs) : argument source i = placed i (argument? cs) := by
  simp only [argument, List.foldl_cons, List.foldl_nil, quoted_eq h, run_eq _ blunt_isWordChar h,
    index_eq h, pointed_eq h, run_eq _ blunt_isDigit h, run_eq _ blunt_isArgChar h]
  have hstart : (.ok none : Reading Argument) = placed i none := rfl
  simp only [hstart, firstOf_placed, Option.none_or, argument?]

lemma command_eq (h : At source i cs) : command source i = placed i (command? cs) := by
  cases cs with
  | nil =>
    rw [command, h.unit?_nil]
    rfl
  | cons c rest =>
    have hfirst := h.map_unit? blunt_isAlpha
    rw [List.head?_cons, Option.map_some] at hfirst
    by_cases hc : c.isAlpha = true
    · have hrest := h.tail (toNat_lt_of_isAlpha hc)
      have hstop : i + 1 + count source isWordChar (i + 1) =
          i + byteSize (c :: rest.takeWhile isWordChar) := by
        rw [hrest.count_eq blunt_isWordChar, add_byteSize_cons (toNat_lt_of_isAlpha hc)]
      have hspelled :
          At source i ((c :: rest.takeWhile isWordChar) ++ rest.dropWhile isWordChar) := by
        rw [List.cons_append, List.takeWhile_append_dropWhile]
        exact h
      rw [command, if_pos (by rw [hfirst, hc]), command?, if_pos hc]
      simp only [hstop, hspelled.cut_eq, Except.bind, String.toList_ofList]
      generalize c :: rest.takeWhile isWordChar = spelled at hspelled ⊢
      generalize rest.dropWhile isWordChar = after at hspelled ⊢
      have hmark := hspelled.append.unit?_eq_some_iff (a := '@') (by decide)
      split
      · next hat =>
        obtain ⟨later, rfl⟩ := hmark.1 hat
        rw [argument_eq (hspelled.append.tail (by decide)), mapValue_placed]
        simp only
        cases argument? later with
        | none =>
          rw [Option.map_none, firstOf_none, placed, Option.map_some, byteSize_append,
            ← Nat.add_assoc, add_byteSize_cons (by decide)]
          rfl
        | some m =>
          rw [Option.map_some, firstOf_some, placed, Option.map_some, byteSize_append,
            ← Nat.add_assoc, add_byteSize_cons (by decide)]
          rfl
      · next hat =>
        split
        · exact absurd (hmark.2 ⟨_, rfl⟩) hat
        · rfl
    · rw [command, if_neg (by simp [hfirst, hc]), command?, if_neg hc]
      rfl

lemma tokenKind_eq (h : At source i cs) : tokenKind source i = placed i (tokenKind? cs) := by
  rw [tokenKind, reference_eq h, command_eq h, mapValue_placed, mapValue_placed, firstOf_placed]
  rfl

lemma form_eq {rest : List Char} (h : At source i (':' :: rest)) :
    form source i = placed i (form? (':' :: rest)) := by
  have hrest := h.tail (by decide)
  have hcolon := hrest.unit?_eq_some_iff (a := ':') (by decide)
  unfold form?
  split
  · next more hmore =>
    obtain rfl : rest = ':' :: more := List.cons.inj hmore |>.2
    rw [form, if_pos (hcolon.2 ⟨_, rfl⟩), tokenKind_eq (hrest.tail (by decide)), mapValue_placed,
      placed_push (c := ':') (by decide), placed_push (c := ':') (by decide), Option.map_map,
      Option.map_map]
    rfl
  · next more hnot hmore =>
    obtain rfl : rest = more := List.cons.inj hmore |>.2
    rw [form, if_neg, tokenKind_eq hrest, mapValue_placed, placed_push (c := ':') (by decide),
      Option.map_map]
    · rfl
    · intro hunit
      obtain ⟨more, rfl⟩ := hcolon.1 hunit
      exact hnot more rfl
  · next hnot => exact absurd rfl (hnot rest)

end

end ColonScript.ByteScan
