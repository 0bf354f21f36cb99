import Mathlib.Data.List.Basic
import ColonScript.Store

/-!
# Failures and tables

Facts that several parts of the theory use: when a computation that may fail has succeeded or
failed in one of its steps, and what a table of slots holds after a write.
-/

namespace ColonScript

/-! ### Computations that may fail -/

/-- A result of a mapping comes from a result. -/
lemma map_eq_ok_iff {ε α β : Type} {x : Except ε α} {f : α → β} {b : β} :
    x.map f = .ok b ↔ ∃ a, x = .ok a ∧ f a = b := by
  cases x with
  | error e => simp [Except.map]
  | ok a => simp [Except.map]

/-- Two steps succeed if the first does and then the second. -/
lemma bind_eq_ok_iff {ε α β : Type} {x : Except ε α} {k : α → Except ε β} {b : β} :
    x >>= k = .ok b ↔ ∃ a, x = .ok a ∧ k a = .ok b := by
  cases x with
  | error e => simp [bind, Except.bind]
  | ok a => simp [bind, Except.bind]

/-- Two steps fail if the first fails, or else the second. -/
lemma bind_eq_error_iff {ε α β : Type} {x : Except ε α} {k : α → Except ε β} {e : ε} :
    x >>= k = .error e ↔ x = .error e ∨ ∃ a, x = .ok a ∧ k a = .error e := by
  cases x with
  | error other => simp [bind, Except.bind]
  | ok a => simp [bind, Except.bind]

/-! ### Tables -/

namespace Table

/-- After a write, the slot written has the new content and every other slot its old one. -/
lemma get?_insert (t : Table) (n m : UInt64) (slot : Slot) :
    (t.insert n slot).get? m = if m = n then some slot else t.get? m := by
  obtain ⟨entries⟩ := t
  simp only [get?, insert]
  have hother {k : UInt64} (hne : m ≠ k) : (m == k) = false := by simpa using hne
  induction entries with
  | nil =>
    by_cases hsame : m = n
    · simp [insertEntry, hsame]
    · simp [insertEntry, List.lookup_cons, hsame, hother hsame]
  | cons entry rest ih =>
    obtain ⟨k, old⟩ := entry
    by_cases hhere : n = k
    · subst hhere
      by_cases hsame : m = n
      · simp [insertEntry, hsame]
      · simp [insertEntry, List.lookup_cons, hsame, hother hsame]
    · by_cases hsame : m = k
      · subst hsame
        simp [insertEntry, hhere, Ne.symm hhere]
      · simp [insertEntry, List.lookup_cons, hhere, hother hsame, ih]

/-- After a write there is the variable written and all that there was. -/
lemma contains_insert (t : Table) (n m : UInt64) (slot : Slot) :
    (t.insert n slot).contains m = true ↔ m = n ∨ t.contains m = true := by
  simp only [contains, get?_insert]
  split_ifs with hsame <;> simp [hsame]

end Table

end ColonScript
