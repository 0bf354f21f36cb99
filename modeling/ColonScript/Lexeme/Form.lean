import ColonScript.Text.Blank
import ColonScript.Text.Quoted
import ColonScript.Token

/-!
# The forms of a lexeme

Readers for everything that can follow a colon.  A reader looks at the front of a text and
returns a match: what was read, the text that it took and the rest.  Text and rest always make
up what the reader was given (`Match.Splits`).

A colon is followed by a reference or by a command.  A second colon before it makes the whole
form stand for no token.
-/

namespace ColonScript

/-- What a reader found at the front of a text. -/
structure Match (α : Type) where
  value : α
  /-- The characters that the match consists of. -/
  text : List Char
  /-- The characters after the match. -/
  rest : List Char
deriving DecidableEq, Repr

namespace Match

/-- The same match with one more character before it. -/
def push {α : Type} (c : Char) (m : Match α) : Match α :=
  { m with text := c :: m.text }

/-- The same match with another value. -/
def map {α β : Type} (f : α → β) (m : Match α) : Match β :=
  ⟨f m.value, m.text, m.rest⟩

/-- A match of `cs` loses nothing of `cs`. -/
def Splits {α : Type} (m : Match α) (cs : List Char) : Prop :=
  m.text ++ m.rest = cs

end Match

namespace Lexeme

/-- A letter or an underscore. -/
def isWordChar (c : Char) : Bool :=
  c.isAlpha || c == '_'

/-- A character that can stand in an unquoted argument. -/
def isArgChar (c : Char) : Bool :=
  c != ':' && !Text.isAsciiBlank c

/-! ### References -/

/-- Reads a slot: digits that fit in 64 bits, or `-1`. -/
def slotId? (cs : List Char) : Option (Match SlotId) :=
  match cs.takeWhile Char.isDigit, cs with
  | [], '-' :: '1' :: rest => some ⟨.argCount, ['-', '1'], rest⟩
  | [], _ => none
  | digits, _ =>
    if Decimal.value digits < UInt64.size then
      some ⟨.index (UInt64.ofNat (Decimal.value digits)), digits, cs.dropWhile Char.isDigit⟩
    else none

/-- The sigil that a character stands for. -/
def sigil? (c : Char) : Option Sigil :=
  if c = '~' then some .var else if c = '&' then some .fn else none

/-- Reads a sigil and a slot. -/
def sigilSlot? (parent : Bool) : List Char → Option (Match Reference)
  | [] => none
  | c :: rest =>
    match sigil? c, slotId? rest with
    | some sigil, some m => some ((m.map fun id => ⟨sigil, id, parent⟩).push c)
    | _, _ => none

/-- Reads a reference. -/
def reference? : List Char → Option (Match Reference)
  | '^' :: rest => (sigilSlot? true rest).map (·.push '^')
  | cs => sigilSlot? false cs

/-! ### Arguments -/

/-- Reads the longest run of characters of one class, if it is not empty. -/
def run? (kind : ArgKind) (p : Char → Bool) (cs : List Char) : Option (Match Argument) :=
  match cs.takeWhile p with
  | [] => none
  | taken => some ⟨⟨kind, String.ofList taken⟩, taken, cs.dropWhile p⟩

/-- Reads a quoted text. -/
def quoted? : List Char → Option (Match Argument)
  | '"' :: rest =>
    (Text.Quoted.closing? rest).map fun (payload, after) =>
      ⟨⟨.text, String.ofList payload⟩, '"' :: payload ++ ['"'], after⟩
  | _ => none

/-- Reads an index: a tilde and digits. -/
def index? : List Char → Option (Match Argument)
  | '~' :: rest => (run? .index Char.isDigit rest).map (·.push '~')
  | _ => none

/-- Reads digits with a point, and with a digit on at least one side of it. -/
def pointed? (cs : List Char) : Option (Match Argument) :=
  let whole := cs.takeWhile Char.isDigit
  match cs.dropWhile Char.isDigit with
  | '.' :: rest =>
    let fraction := rest.takeWhile Char.isDigit
    let text := whole ++ '.' :: fraction
    if whole.isEmpty && fraction.isEmpty then none
    else some ⟨⟨.dynamic, String.ofList text⟩, text, rest.dropWhile Char.isDigit⟩
  | _ => none

/-- Reads an argument: the first that applies of a text, a word, an index, a number with a
point, digits, and a run of other characters. -/
def argument? (cs : List Char) : Option (Match Argument) :=
  quoted? cs |>.or (run? .word isWordChar cs) |>.or (index? cs) |>.or (pointed? cs)
    |>.or (run? .static Char.isDigit cs) |>.or (run? .unknown isArgChar cs)

/-! ### Commands and forms -/

/-- Reads a command: a name in any case and, after an at sign, an argument.  The at sign belongs
to the command also where no argument follows. -/
def command? : List Char → Option (Match Command)
  | [] => none
  | c :: rest =>
    if c.isAlpha then
      let spelled := c :: rest.takeWhile isWordChar
      let name := CommandName.ofWord (String.ofList (spelled.map Char.toLower))
      match rest.dropWhile isWordChar with
      | '@' :: after =>
        match argument? after with
        | some m => some ⟨⟨name, some m.value⟩, spelled ++ '@' :: m.text, m.rest⟩
        | none => some ⟨⟨name, none⟩, spelled ++ ['@'], after⟩
      | after => some ⟨⟨name, none⟩, spelled, after⟩
    else none

/-- Reads what makes up a token after its colon. -/
def tokenKind? (cs : List Char) : Option (Match TokenKind) :=
  ((reference? cs).map (Match.map .reference)).or ((command? cs).map (Match.map .command))

/-- Reads a whole form, from its colon on.  After two colons the form stands for no token. -/
def form? : List Char → Option (Match (Option TokenKind))
  | ':' :: ':' :: rest =>
    (tokenKind? rest).map fun m => ((m.map fun _ => none).push ':').push ':'
  | ':' :: rest => (tokenKind? rest).map fun m => (m.map some).push ':'
  | _ => none

/-! ### Nothing is lost -/

theorem slotId?_splits {cs : List Char} {m : Match SlotId} (hfound : slotId? cs = some m) :
    m.Splits cs := by
  unfold slotId? at hfound
  split at hfound
  · simp only [Option.some.injEq] at hfound; subst hfound; rfl
  · simp at hfound
  · split at hfound
    · simp only [Option.some.injEq] at hfound
      subst hfound
      simp [Match.Splits, List.takeWhile_append_dropWhile]
    · simp at hfound

theorem sigilSlot?_splits {parent : Bool} {cs : List Char} {m : Match Reference}
    (hfound : sigilSlot? parent cs = some m) : m.Splits cs := by
  unfold sigilSlot? at hfound
  split at hfound
  · simp at hfound
  · split at hfound
    · next id hinner =>
      simp only [Option.some.injEq] at hfound
      subst hfound
      have := slotId?_splits hinner
      simp_all [Match.Splits, Match.push, Match.map]
    · simp at hfound

theorem reference?_splits {cs : List Char} {m : Match Reference}
    (hfound : reference? cs = some m) : m.Splits cs := by
  unfold reference? at hfound
  split at hfound
  · obtain ⟨inner, hread, rfl⟩ := Option.map_eq_some_iff.1 hfound
    have := sigilSlot?_splits hread
    simp_all [Match.Splits, Match.push]
  · exact sigilSlot?_splits hfound

theorem run?_splits {kind : ArgKind} {p : Char → Bool} {cs : List Char} {m : Match Argument}
    (hfound : run? kind p cs = some m) : m.Splits cs := by
  unfold run? at hfound
  split at hfound
  · simp at hfound
  · simp only [Option.some.injEq] at hfound
    subst hfound
    simp [Match.Splits, List.takeWhile_append_dropWhile]

theorem quoted?_splits {cs : List Char} {m : Match Argument}
    (hfound : quoted? cs = some m) : m.Splits cs := by
  unfold quoted? at hfound
  split at hfound
  · obtain ⟨⟨payload, after⟩, hread, rfl⟩ := Option.map_eq_some_iff.1 hfound
    simp [Match.Splits, ← Text.Quoted.append_of_closing? hread]
  · simp at hfound

theorem index?_splits {cs : List Char} {m : Match Argument}
    (hfound : index? cs = some m) : m.Splits cs := by
  unfold index? at hfound
  split at hfound
  · obtain ⟨inner, hread, rfl⟩ := Option.map_eq_some_iff.1 hfound
    have := run?_splits hread
    simp_all [Match.Splits, Match.push]
  · simp at hfound

theorem pointed?_splits {cs : List Char} {m : Match Argument}
    (hfound : pointed? cs = some m) : m.Splits cs := by
  unfold pointed? at hfound
  simp only at hfound
  split at hfound
  · next rest hafter =>
    split at hfound
    · simp at hfound
    · simp only [Option.some.injEq] at hfound
      subst hfound
      have hwhole : cs.takeWhile Char.isDigit ++ cs.dropWhile Char.isDigit = cs :=
        List.takeWhile_append_dropWhile
      rw [hafter] at hwhole
      simp [Match.Splits, List.takeWhile_append_dropWhile, hwhole]
  · simp at hfound

theorem argument?_splits {cs : List Char} {m : Match Argument}
    (hfound : argument? cs = some m) : m.Splits cs := by
  simp only [argument?, Option.or_eq_some_iff] at hfound
  rcases hfound with ((((h | ⟨_, h⟩) | ⟨_, h⟩) | ⟨_, h⟩) | ⟨_, h⟩) | ⟨_, h⟩
  · exact quoted?_splits h
  · exact run?_splits h
  · exact index?_splits h
  · exact pointed?_splits h
  · exact run?_splits h
  · exact run?_splits h

theorem command?_splits {cs : List Char} {m : Match Command}
    (hfound : command? cs = some m) : m.Splits cs := by
  unfold command? at hfound
  split at hfound
  · simp at hfound
  · next c rest =>
    split at hfound
    · have hwhole : rest.takeWhile isWordChar ++ rest.dropWhile isWordChar = rest :=
        List.takeWhile_append_dropWhile
      simp only at hfound
      split at hfound
      · next after hat =>
        rw [hat] at hwhole
        split at hfound
        · next inner hread =>
          have htail : inner.text ++ inner.rest = after := argument?_splits hread
          simp only [Option.some.injEq] at hfound
          subst hfound
          simp [Match.Splits, htail, hwhole]
        · simp only [Option.some.injEq] at hfound
          subst hfound
          simp [Match.Splits, hwhole]
      · simp only [Option.some.injEq] at hfound
        subst hfound
        simp [Match.Splits, hwhole]
    · simp at hfound

theorem tokenKind?_splits {cs : List Char} {m : Match TokenKind}
    (hfound : tokenKind? cs = some m) : m.Splits cs := by
  simp only [tokenKind?, Option.or_eq_some_iff] at hfound
  rcases hfound with h | ⟨_, h⟩
  · obtain ⟨inner, hread, rfl⟩ := Option.map_eq_some_iff.1 h
    exact reference?_splits hread
  · obtain ⟨inner, hread, rfl⟩ := Option.map_eq_some_iff.1 h
    exact command?_splits hread

theorem form?_splits {cs : List Char} {m : Match (Option TokenKind)}
    (hfound : form? cs = some m) : m.Splits cs := by
  unfold form? at hfound
  split at hfound
  · obtain ⟨inner, hread, rfl⟩ := Option.map_eq_some_iff.1 hfound
    have := tokenKind?_splits hread
    simp_all [Match.Splits, Match.push, Match.map]
  · obtain ⟨inner, hread, rfl⟩ := Option.map_eq_some_iff.1 hfound
    have := tokenKind?_splits hread
    simp_all [Match.Splits, Match.push, Match.map]
  · simp at hfound

/-- A form takes at least its colon. -/
theorem form?_text_ne_nil {cs : List Char} {m : Match (Option TokenKind)}
    (hfound : form? cs = some m) : m.text ≠ [] := by
  unfold form? at hfound
  split at hfound
  · obtain ⟨inner, _, rfl⟩ := Option.map_eq_some_iff.1 hfound
    simp [Match.push]
  · obtain ⟨inner, _, rfl⟩ := Option.map_eq_some_iff.1 hfound
    simp [Match.push]
  · simp at hfound

/-- What follows a form is shorter than the text that the form was read from. -/
theorem length_rest_lt {cs : List Char} {m : Match (Option TokenKind)}
    (hfound : form? cs = some m) : m.rest.length < cs.length := by
  have hsplit := form?_splits hfound
  have htaken := List.length_pos_iff.2 (form?_text_ne_nil hfound)
  rw [← hsplit, List.length_append]
  omega

end Lexeme

end ColonScript
