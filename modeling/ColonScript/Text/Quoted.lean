/-!
# Quoted text

A text stands between double quotes.  Inside, a backslash and a double quote are written with
a backslash before them; a backslash before any other character is not allowed.  What stands
between the quotes, with its backslashes, is the payload of the text.

`escape` writes a payload, `unescape` reads one back, and `closing?` finds the end of the
payload in a longer text.
-/

namespace ColonScript.Text.Quoted

/-- Whether a character needs a backslash inside a quoted text. -/
def isEscaped (c : Char) : Bool :=
  c == '"' || c == '\\'

/-- The payload that stands for a text. -/
def escape : List Char → List Char
  | [] => []
  | c :: rest => if isEscaped c then '\\' :: c :: escape rest else c :: escape rest

/-- The text that a payload stands for: a backslash gives way to the character after it.  A
backslash at the very end stands for itself. -/
def unescape : List Char → List Char
  | [] => []
  | '\\' :: c :: rest => c :: unescape rest
  | c :: rest => c :: unescape rest

/-- Cuts a text that follows an opening quote into the payload up to the first closing quote
and what follows that quote.  There is none if the text ends first, or if a backslash precedes
a character that needs none. -/
def closing? : List Char → Option (List Char × List Char)
  | [] => none
  | '"' :: rest => some ([], rest)
  | '\\' :: c :: rest =>
    if isEscaped c then (closing? rest).map fun (payload, after) => ('\\' :: c :: payload, after)
    else none
  | c :: rest =>
    if c = '\\' then none
    else (closing? rest).map fun (payload, after) => (c :: payload, after)

/-- A text between quotes. -/
def quote (text : String) : String :=
  "\"" ++ String.ofList (escape text.toList) ++ "\""

/-- Payload, closing quote and remainder make up the text. -/
theorem append_of_closing? {cs payload after : List Char}
    (hfound : closing? cs = some (payload, after)) : payload ++ '"' :: after = cs := by
  fun_induction closing? cs generalizing payload after with
  | case1 => simp at hfound
  | case2 rest => simp_all
  | case3 c rest _ ih =>
    obtain ⟨⟨p, a⟩, hinner, hsame⟩ := Option.map_eq_some_iff.1 hfound
    simp only [Prod.mk.injEq] at hsame
    obtain ⟨rfl, rfl⟩ := hsame
    simp [ih hinner]
  | case4 => simp at hfound
  | case5 => simp at hfound
  | case6 c rest _ _ _ ih =>
    obtain ⟨⟨p, a⟩, hinner, hsame⟩ := Option.map_eq_some_iff.1 hfound
    simp only [Prod.mk.injEq] at hsame
    obtain ⟨rfl, rfl⟩ := hsame
    simp [ih hinner]

end ColonScript.Text.Quoted
