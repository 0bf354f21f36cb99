import ColonScript.Proofs.ByteReaders

/-!
# Escaped texts

Three loops treat a backslash, each in its own way.  `escape` puts one before every quote and every
backslash.  `unescape` takes one away before any character, and keeps one that stands at the end.
`closing?` goes over one only before a quote or a backslash, and finds nothing otherwise.

They agree nevertheless.  `Grammar.Payload` says what may stand between two quotes, and this is
exactly what `escape` writes (`Grammar.payload_iff_escape_unescape`): wherever `unescape` does more
than undo an escape, there is no payload.  So escaping is a bijection from the texts onto the
payloads that are found, and a quoted text is read by bytes exactly where an escaped text stands
between quotes (`ByteScan.quoted_eq_some_iff`).
-/

namespace ColonScript

/-! ### Escaping and unescaping -/

namespace Text.Quoted

lemma escape_cons (c : Char) (rest : List Char) :
    escape (c :: rest) = if isEscaped c then '\\' :: c :: escape rest else c :: escape rest := rfl

lemma unescape_backslash (c : Char) (rest : List Char) :
    unescape ('\\' :: c :: rest) = c :: unescape rest := rfl

lemma unescape_plain {c : Char} (rest : List Char) (hplain : c ≠ '\\') :
    unescape (c :: rest) = c :: unescape rest :=
  unescape.eq_3 c rest fun _ _ hslash _ => hplain hslash

/-- A text that is escaped and then unescaped is the same text. -/
lemma unescape_escape (cs : List Char) : unescape (escape cs) = cs := by
  induction cs with
  | nil => rfl
  | cons c rest ih =>
    rw [escape_cons]
    split
    case isTrue => rw [unescape_backslash, ih]
    case isFalse hplain =>
      have hslash : c ≠ '\\' := by
        rintro rfl
        exact hplain (by decide)
      rw [unescape_plain _ hslash, ih]

end Text.Quoted

open Text Quoted

/-! ### Payloads are what is escaped -/

namespace Grammar

/-- Between quotes every text can stand once it is escaped. -/
lemma payload_escape (cs : List Char) : Payload (escape cs) := by
  induction cs with
  | nil => exact .nil
  | cons c rest ih =>
    rw [escape_cons]
    split_ifs with hescaped
    · exact .escaped (by simpa [isEscaped] using hescaped) ih
    · simp only [isEscaped, Bool.or_eq_true, beq_iff_eq, not_or] at hescaped
      exact .plain hescaped.1 hescaped.2 ih

/-- What stands between quotes is written again if it is unescaped and then escaped. -/
lemma Payload.escape_unescape {payload : List Char} (h : Payload payload) :
    escape (unescape payload) = payload := by
  induction h with
  | nil => rfl
  | @plain c more hquote hslash _ ih =>
    have hplain : ¬ isEscaped c = true := by simp [isEscaped, hquote, hslash]
    rw [unescape_plain more hslash, escape_cons, if_neg hplain, ih]
  | @escaped c more hc _ ih =>
    have hescaped : isEscaped c = true := by simpa [isEscaped] using hc
    rw [unescape_backslash, escape_cons, if_pos hescaped, ih]

/-- Between quotes nothing can stand but what escaping writes. -/
lemma payload_iff_escape_unescape {payload : List Char} :
    Payload payload ↔ escape (unescape payload) = payload := by
  constructor
  · intro h
    exact h.escape_unescape
  · intro h
    rw [← h]
    exact payload_escape (unescape payload)

end Grammar

/-! ### Searching for the closing quote -/

namespace Text.Quoted

/-- A payload that the search for a closing quote finds in some text. -/
def Found (payload : List Char) : Prop :=
  ∃ cs after, closing? cs = some (payload, after)

/-- The search goes over an escaped text and stops at the quote after it. -/
lemma closing?_escape (text after : List Char) :
    closing? (escape text ++ '"' :: after) = some (escape text, after) :=
  Grammar.closing?_payload (Grammar.payload_escape text) after

/-- The search ends at a quote only after an escaped text. -/
lemma closing?_eq_some_iff_exists {cs payload after : List Char} :
    closing? cs = some (payload, after) ↔
      ∃ text, payload = escape text ∧ cs = escape text ++ '"' :: after := by
  constructor
  · intro h
    have hescape := (Grammar.payload_of_closing? h).escape_unescape
    refine ⟨unescape payload, hescape.symm, ?_⟩
    rw [hescape, append_of_closing? h]
  · rintro ⟨text, rfl, rfl⟩
    exact closing?_escape text after

/-- Exactly what escaping writes is found. -/
lemma found_iff_escape_unescape {payload : List Char} :
    Found payload ↔ escape (unescape payload) = payload := by
  rw [← Grammar.payload_iff_escape_unescape]
  constructor
  · rintro ⟨cs, after, h⟩
    exact Grammar.payload_of_closing? h
  · intro h
    exact ⟨_, [], Grammar.closing?_payload h []⟩

/-- Unescaping is the inverse of escaping. -/
lemma invOn_unescape_escape : Set.InvOn unescape escape Set.univ {payload | Found payload} := by
  constructor
  · intro text _
    exact unescape_escape text
  · intro payload hfound
    exact found_iff_escape_unescape.1 hfound

end Text.Quoted

/-! ### Reading by bytes -/

namespace ByteScan

variable {source : String} {i : ℕ}

/-- A quoted text is read by bytes up to the quote after an escaped text. -/
lemma quoted_escape {text after : List Char}
    (h : At source i ('"' :: escape text ++ '"' :: after)) :
    quoted source i =
      .ok (some (i + byteSize (escape text) + 2, ⟨.text, String.ofList (escape text)⟩)) := by
  have hsize : i + byteSize ('"' :: escape text ++ ['"']) = i + byteSize (escape text) + 2 := by
    rw [List.cons_append, add_byteSize_cons (by decide), byteSize_append, ← Nat.add_assoc,
      add_byteSize_cons (by decide), byteSize_nil]
    omega
  rw [List.cons_append] at h
  rw [quoted_eq h, Lexeme.quoted?, closing?_escape]
  simp only [placed, Option.map_some, hsize]

/-- A quoted text is read by bytes only where an escaped text stands between quotes. -/
lemma quoted_eq_some_iff {cs : List Char} (h : At source i cs) {stop : ℕ} {a : Argument} :
    quoted source i = .ok (some (stop, a)) ↔
      ∃ text after, cs = '"' :: escape text ++ '"' :: after ∧
        stop = i + byteSize (escape text) + 2 ∧ a = ⟨.text, String.ofList (escape text)⟩ := by
  constructor
  · intro hquoted
    have hread := hquoted
    rw [quoted_eq h] at hread
    obtain ⟨m, hm, -⟩ := Option.map_eq_some_iff.1 (Except.ok.inj hread)
    -- the reader of characters has found a quote and, after it, an escaped text
    unfold Lexeme.quoted? at hm
    split at hm
    case h_1 rest =>
      obtain ⟨⟨payload, after⟩, hclosing, -⟩ := Option.map_eq_some_iff.1 hm
      obtain ⟨text, -, rfl⟩ := closing?_eq_some_iff_exists.1 hclosing
      rw [quoted_escape h] at hquoted
      obtain ⟨hstop, ha⟩ := Prod.mk.inj (Option.some.inj (Except.ok.inj hquoted))
      exact ⟨text, after, rfl, hstop.symm, ha.symm⟩
    case h_2 => simp at hm
  · rintro ⟨text, after, rfl, rfl, rfl⟩
    exact quoted_escape h

end ByteScan

/-- Escaping is a bijection from the texts onto the payloads that are found before a closing quote,
and unescaping is its inverse.  The search goes over an escaped text and stops at the quote after
it, whatever comes later.  By bytes, a quoted text is read at a place of a source exactly if an
escaped text stands between quotes there, and the reading ends after the second quote. -/
theorem Text.Quoted.escape_bijOn :
    Set.BijOn escape Set.univ {payload | Found payload} ∧
      (∀ text, unescape (escape text) = text) ∧
      (∀ payload, Found payload ↔ escape (unescape payload) = payload) ∧
      (∀ text after, closing? (escape text ++ '"' :: after) = some (escape text, after)) ∧
      ∀ source i cs, At source i cs → ∀ stop a,
        (ByteScan.quoted source i = .ok (some (stop, a)) ↔
          ∃ text after, cs = '"' :: escape text ++ '"' :: after ∧
            stop = i + byteSize (escape text) + 2 ∧ a = ⟨.text, String.ofList (escape text)⟩) := by
  refine ⟨?_, unescape_escape, ?_, closing?_escape, ?_⟩
  · refine invOn_unescape_escape.bijOn ?_ (Set.mapsTo_univ _ _)
    intro text _
    exact ⟨_, [], closing?_escape text []⟩
  · intro payload
    exact found_iff_escape_unescape
  · intro source i cs h stop a
    exact ByteScan.quoted_eq_some_iff h

/-- A text that ends with a backslash, after a run of backslashes before a quote and a character of
two bytes.  The quotes around it are told from those inside, and from the one that follows. -/
theorem Text.Quoted.escape_bijOn_backslash_at_end :
    escape "\\\\\"é\\".toList = "\\\\\\\\\\\"é\\\\".toList ∧
      escape (unescape "\\\\\\\\\\\"é\\\\".toList) = "\\\\\\\\\\\"é\\\\".toList ∧
      ByteScan.quoted ":a@\"\\\\\\\\\\\"é\\\\\"\"" 3 =
        .ok (some (15, ⟨.text, "\\\\\\\\\\\"é\\\\"⟩)) := by
  obtain ⟨-, -, hreadBack, hclosing, hbytes⟩ := escape_bijOn
  have hescape : escape "\\\\\"é\\".toList = "\\\\\\\\\\\"é\\\\".toList := by decide
  have hfound : Found "\\\\\\\\\\\"é\\\\".toList := by
    rw [← hescape]
    exact ⟨_, ['"'], hclosing _ _⟩
  have hplace : At ":a@\"\\\\\\\\\\\"é\\\\\"\"" 3 "\"\\\\\\\\\\\"é\\\\\"\"".toList :=
    ⟨":a@".toList, by decide, by decide⟩
  refine ⟨hescape, (hreadBack _).1 hfound, (hbytes _ _ _ hplace _ _).2 ?_⟩
  exact ⟨"\\\\\"é\\".toList, ['"'], by decide, by decide, by decide⟩

end ColonScript
