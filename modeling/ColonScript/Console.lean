import ColonScript.Fault

/-!
# Bounded output

A console collects the characters that a program prints.  It may have room for a limited number
of characters only; a text that does not fit is cut off where the room ends, and the write
fails.  Writing the empty text never fails.
-/

namespace ColonScript

/-- The output of a program so far, and how many more characters it takes. -/
structure Console where
  written : String := ""
  /-- The number of characters that still fit; none means no limit. -/
  room : Option Nat := none
deriving DecidableEq, Repr

/-- A failed step and the output at the time of the failure. -/
abbrev Failed := Fault × Console

namespace Console

/-- Writes a text as far as it fits. -/
def write (c : Console) (text : String) : Except Failed Console :=
  match c.room with
  | none => .ok { c with written := c.written ++ text }
  | some n =>
    if text.length ≤ n then .ok ⟨c.written ++ text, some (n - text.length)⟩
    else .error (.output, ⟨c.written ++ String.ofList (text.toList.take n), some 0⟩)

/-- Writes some texts one after the other. -/
def writeAll (c : Console) : List String → Except Failed Console
  | [] => .ok c
  | text :: rest =>
    match c.write text with
    | .error e => .error e
    | .ok c => c.writeAll rest

end Console

end ColonScript
