import ColonScript.Proofs.ModeAgreement
import ColonScript.Proofs.Output

/-!
# Output that is cut off

A program can run on an output that takes only a limited number of characters.  Such a run goes
as the run on an output without a limit, up to the first character that does not fit: there it
ends with an output error, whatever the unlimited run would have come to.

`Console.Bounded` compares two results, one without and one with a limit.  It is kept when one
step follows another (`Bounded.bind`), since nothing that is printed later changes the characters
that were printed before.  So it holds for writing, for printing, for every statement and for
whole runs (`Program.bounded_steps`), and this says what a limited run writes and how it ends.
-/

namespace ColonScript

namespace Console

/-! ### One output with a limit and one without -/

/-- The same output with room for `limit` characters in all. -/
def within (limit : ℕ) (c : Console) : Console :=
  ⟨c.written, some (limit - c.written.length)⟩

/-- The output that is full after the first `limit` characters. -/
def cutOff (limit : ℕ) (c : Console) : Console :=
  ⟨String.ofList (c.written.toList.take limit), some 0⟩

/-- Characters that are printed later do not matter for an output that is full before. -/
lemma Extends.cutOff_eq {limit : ℕ} {c d : Console} (h : c.Extends d)
    (hfull : limit ≤ c.written.length) : c.cutOff limit = d.cutOff limit := by
  obtain ⟨more, hmore⟩ := h
  have hlength : limit ≤ c.written.toList.length := by rwa [String.length_toList]
  rw [cutOff, cutOff, hmore, String.toList_append, List.take_append_of_le_length hlength]

/-- An output that fits is not cut off. -/
lemma written_cutOff {limit : ℕ} {c : Console} (hfits : c.written.length ≤ limit) :
    (c.cutOff limit).written = c.written := by
  have hlength : c.written.toList.length ≤ limit := by rwa [String.length_toList]
  rw [cutOff, List.take_of_length_le hlength, String.ofList_toList]

/-- An output only gets longer. -/
lemma Extends.length_le {c d : Console} (h : c.Extends d) :
    c.written.length ≤ d.written.length := by
  obtain ⟨more, hmore⟩ := h
  rw [hmore, String.length_append]
  omega

/-- How a step ends on an output with room for `limit` characters in all, given how it ends
without a limit.  If everything that was printed fits, then both end alike, where `place` gives the
result its limited output.  Otherwise the limited step ends with the output cut off and with an
error from `full`. -/
inductive Bounded {ε α : Type} (limit : ℕ) (full : ε → Prop) (output : α → Console)
    (place : α → α) : Except (ε × Console) α → Except (ε × Console) α → Prop
  | ok {a : α} (hroom : (output a).room = none) (hfits : (output a).written.length ≤ limit) :
      Bounded limit full output place (.ok a) (.ok (place a))
  | error {e : ε} {c : Console} (hfits : c.written.length ≤ limit) :
      Bounded limit full output place (.error (e, c)) (.error (e, c.within limit))
  | cut {x : Except (ε × Console) α} {e : ε} (hfull : full e)
      (hover : limit < (reached output x).written.length) :
      Bounded limit full output place x (.error (e, (reached output x).cutOff limit))

namespace Bounded

variable {ε α β : Type} {limit : ℕ} {full : ε → Prop} {f : α → Console} {place : α → α}
  {g : β → Console} {place' : β → β}

/-- The error of a step that is cut off may be described in another way. -/
lemma mono {full' : ε → Prop} {x y : Except (ε × Console) α}
    (h : Bounded limit full f place x y)
    (hfull : limit < (reached f x).written.length → ∀ e, full e → full' e) :
    Bounded limit full' f place x y := by
  cases h with
  | ok hroom hfits => exact .ok hroom hfits
  | error hfits => exact .error hfits
  | cut he hover => exact .cut (hfull hover _ he) hover

/-- Two steps, the second after a success of the first, are cut off where one of them is. -/
lemma bind {x y : Except (ε × Console) α} {k : α → Except (ε × Console) β}
    (h : Bounded limit full f place x y)
    (hk : ∀ a, x = .ok a → (f a).room = none → (f a).written.length ≤ limit →
      Bounded limit full g place' (k a) (k (place a)))
    (hextends : ∀ a, (f a).Extends (reached g (k a))) :
    Bounded limit full g place' (x.bind k) (y.bind k) := by
  have hmore : (reached f x).Extends (reached g (x.bind k)) := (Extends.refl _).bind hextends
  cases h with
  | ok hroom hfits => exact hk _ rfl hroom hfits
  | error hfits => exact .error hfits
  | cut he hover =>
    have hlonger := hmore.length_le
    have hover' : limit < (reached g (x.bind k)).written.length := by omega
    rw [hmore.cutOff_eq (Nat.le_of_lt hover)]
    exact .cut he hover'

/-- A result with an output can be put into a larger one. -/
lemma map {x y : Except (ε × Console) α} (h : Bounded limit full f place x y) {w : α → β}
    (houtput : ∀ a, g (w a) = f a) (hplace : ∀ a, w (place a) = place' (w a)) :
    Bounded limit full g place' (x.map w) (y.map w) := by
  have hreached : reached f x = reached g (x.map w) := by
    cases x with
    | error failed => rfl
    | ok a => exact (houtput a).symm
  cases h with
  | ok hroom hfits =>
    simp only [Except.map, hplace]
    exact .ok (by rwa [houtput]) (by rwa [houtput])
  | error hfits => exact .error hfits
  | cut he hover =>
    simp only [hreached] at hover ⊢
    exact .cut he hover

/-- A step that is cut off gives its line to the error. -/
lemma onLine {x y : Except Failed α} (h : Bounded limit (· = Fault.output) f place x y)
    (line : ℕ) :
    Bounded limit (· = (⟨.output, some line⟩ : RunError)) f place
      (x.mapError (Failed.onLine line)) (y.mapError (Failed.onLine line)) := by
  have hreached : reached f x = reached f (x.mapError (Failed.onLine line)) := by
    cases x <;> rfl
  cases h with
  | ok hroom hfits => exact .ok hroom hfits
  | error hfits => exact .error hfits
  | cut he hover =>
    rw [hreached] at hover ⊢
    exact .cut (by rw [he]) hover

end Bounded

/-! ### Writing and printing -/

/-- Writing a text is cut off where the room ends. -/
lemma bounded_write {limit : ℕ} {c : Console} (hroom : c.room = none)
    (hfits : c.written.length ≤ limit) (text : String) :
    Bounded limit (· = Fault.output) id (within limit) (c.write text)
      ((c.within limit).write text) := by
  have hlength : (c.written ++ text).length = c.written.length + text.length :=
    String.length_append c.written text
  rw [write_unlimited hroom, write]
  by_cases htext : text.length ≤ limit - c.written.length
  · have hroom' : limit - c.written.length - text.length = limit - (c.written ++ text).length := by
      omega
    simp only [within, htext, if_true, hroom']
    exact .ok hroom (by dsimp only [id]; omega)
  · have htake : c.written.toList ++ text.toList.take (limit - c.written.length) =
        (c.written ++ text).toList.take limit := by
      rw [String.toList_append, List.take_append, String.length_toList,
        List.take_of_length_le (l := c.written.toList) (by rwa [String.length_toList])]
    have hcut : c.written ++ String.ofList (text.toList.take (limit - c.written.length)) =
        String.ofList ((c.written ++ text).toList.take limit) := by
      rw [← htake, String.ofList_append, String.ofList_toList]
    simp only [within, htext, if_false, hcut]
    exact .cut (x := .ok _) rfl (by dsimp only [reached, id]; omega)

/-- Writing some texts is cut off where the room ends. -/
lemma bounded_writeAll {limit : ℕ} {c : Console} (hroom : c.room = none)
    (hfits : c.written.length ≤ limit) (texts : List String) :
    Bounded limit (· = Fault.output) id (within limit) (c.writeAll texts)
      ((c.within limit).writeAll texts) := by
  induction texts generalizing c with
  | nil => exact .ok hroom hfits
  | cons text rest ih =>
    rw [writeAll_cons, writeAll_cons]
    exact (bounded_write hroom hfits text).bind (fun next _ hroom' hfits' => ih hroom' hfits')
      fun next => next.extends_writeAll rest

end Console

open Console

/-- Printing a template is cut off where the room ends, also if it would fail after that. -/
lemma Template.bounded_printFrom {limit : ℕ} {c : Console} (hroom : c.room = none)
    (hfits : c.written.length ≤ limit) (taken : ℕ) (t : Template) (values : List Value) :
    Bounded limit (· = Fault.output) id (within limit) (printFrom taken c t values)
      (printFrom taken (c.within limit) t values) := by
  induction t generalizing taken c values with
  | nil => exact .ok hroom hfits
  | cons segment rest ih =>
    cases segment with
    | literal text =>
      rw [printFrom_literal, printFrom_literal]
      exact (bounded_write hroom hfits text).bind
        (fun next _ hroom' hfits' => ih hroom' hfits' taken values)
        fun next => extends_printFrom taken next rest values
    | value d =>
      cases values with
      | nil => exact .error hfits
      | cons v more =>
        rw [printFrom_value, printFrom_value]
        exact (bounded_write hroom hfits (d.show v)).bind
          (fun next _ hroom' hfits' => ih hroom' hfits' (taken + 1) more)
          fun next => extends_printFrom (taken + 1) next rest more

/-! ### Statements -/

/-- The same machine with room for `limit` characters in all. -/
def Machine.within (limit : ℕ) (m : Machine) : Machine :=
  { m with console := m.console.within limit }

namespace Program

variable (p : Program)

/-- Printing values goes on from what was written. -/
lemma extends_print (c : Console) (format : Option ℕ) (values : List Value) :
    c.Extends (reached id (p.print c format values)) := by
  cases format with
  | none => exact c.extends_writeAll _
  | some index => exact Template.extends_printFrom 0 c _ values

/-- Printing values is cut off where the room ends. -/
lemma bounded_print {limit : ℕ} {c : Console} (hroom : c.room = none)
    (hfits : c.written.length ≤ limit) (format : Option ℕ) (values : List Value) :
    Bounded limit (· = Fault.output) id (Console.within limit) (p.print c format values)
      (p.print (c.within limit) format values) := by
  cases format with
  | none => exact bounded_writeAll hroom hfits _
  | some index => exact Template.bounded_printFrom hroom hfits 0 _ values

/-- A change of the store prints nothing. -/
lemma bounded_update {limit : ℕ} {c : Console} (hroom : c.room = none)
    (hfits : c.written.length ≤ limit) (result : Except Fault Store) :
    Bounded limit (· = Fault.output) Machine.console (Machine.within limit)
      (Machine.update c result) (Machine.update (c.within limit) result) := by
  cases result with
  | error fault => exact .error hfits
  | ok store => exact .ok hroom hfits

/-- A statement other than an `echo` changes the store only, by a result that does not depend on
the output. -/
lemma step_eq_update {a : Action} (hecho : ∀ format values, a ≠ .echo format values)
    (store : Store) :
    ∃ result, ∀ c : Console, p.step ⟨store, c⟩ a = Machine.update c result := by
  cases a with
  | create id type => exact ⟨store.create id type, fun c => rfl⟩
  | set id l =>
    exact ⟨(p.load store l).bind fun v => store.set id v, fun c => p.step_set ⟨store, c⟩ id l⟩
  | write id type value =>
    cases value with
    | none => exact ⟨.ok (store.write id type .null), fun c => rfl⟩
    | some l =>
      exact ⟨(p.load store l).map fun v => store.write id type v,
        fun c => p.step_write ⟨store, c⟩ id type l⟩
  | echo format values => exact absurd rfl (hecho format values)

/-- A statement goes on from what was written. -/
lemma extends_step (m : Machine) (a : Action) :
    m.console.Extends (reached Machine.console (p.step m a)) := by
  by_cases hecho : ∃ format values, a = .echo format values
  · obtain ⟨format, values, rfl⟩ := hecho
    rw [step]
    cases p.loadAll m.store values with
    | error fault => exact Extends.refl _
    | ok vs =>
      have hprint := p.extends_print m.console format vs
      dsimp only
      cases hprinted : p.print m.console format vs <;> rwa [hprinted] at hprint
  · have hother : ∀ format values, a ≠ .echo format values :=
      fun format values h => hecho ⟨format, values, h⟩
    obtain ⟨result, hresult⟩ := p.step_eq_update hother m.store
    have hstep : p.step m a = Machine.update m.console result := hresult m.console
    rw [hstep]
    cases result <;> exact Extends.refl _

/-- A statement is cut off where the room ends. -/
lemma bounded_step {limit : ℕ} {m : Machine} (hroom : m.console.room = none)
    (hfits : m.console.written.length ≤ limit) (a : Action) :
    Bounded limit (· = Fault.output) Machine.console (Machine.within limit) (p.step m a)
      (p.step (m.within limit) a) := by
  by_cases hecho : ∃ format values, a = .echo format values
  · obtain ⟨format, values, rfl⟩ := hecho
    have hstore : (m.within limit).store = m.store := rfl
    rw [step, step, hstore]
    cases p.loadAll m.store values with
    | error fault => exact .error hfits
    | ok vs =>
      exact (p.bounded_print hroom hfits format vs).map (fun console => rfl) fun console => rfl
  · have hother : ∀ format values, a ≠ .echo format values :=
      fun format values h => hecho ⟨format, values, h⟩
    obtain ⟨result, hresult⟩ := p.step_eq_update hother m.store
    have hfree : p.step m a = Machine.update m.console result := hresult m.console
    have hlimited : p.step (m.within limit) a = Machine.update (m.console.within limit) result :=
      hresult (m.console.within limit)
    rw [hfree, hlimited]
    exact bounded_update hroom hfits result

/-! ### Runs -/

/-- Statements go on from what was written. -/
lemma extends_steps (m : Machine) (statements : List Statement) :
    m.console.Extends (reached Machine.console (p.steps m statements)) := by
  induction statements generalizing m with
  | nil => exact Extends.refl _
  | cons s rest ih =>
    have hfirst : m.console.Extends (reached Machine.console
        ((p.step m s.action).mapError (Failed.onLine s.line))) := by
      have hstep := p.extends_step m s.action
      cases hresult : p.step m s.action <;> rwa [hresult] at hstep
    rw [steps_cons]
    exact hfirst.bind ih

/-- More statements go on from what the first ones have written. -/
lemma extends_steps_append (m : Machine) (first second : List Statement) :
    (reached Machine.console (p.steps m first)).Extends
      (reached Machine.console (p.steps m (first ++ second))) := by
  rw [steps_append]
  exact (Extends.refl _).bind fun next => p.extends_steps next second

/-- Among the statements carried out from `m`, the one after `earlier` writes the character at
place `n`: it is not yet written before that statement, and it is afterwards. -/
def Crosses (m : Machine) (earlier : List Statement) (s : Statement) (n : ℕ) : Prop :=
  (reached Machine.console (p.steps m earlier)).written.length ≤ n ∧
    n < (reached Machine.console (p.steps m (earlier ++ [s]))).written.length

/-- A run is cut off where the room ends, and its error is on the line of the statement that
writes the first character that does not fit. -/
lemma bounded_steps {limit : ℕ} {m : Machine} (hroom : m.console.room = none)
    (hfits : m.console.written.length ≤ limit) (statements : List Statement) :
    Bounded limit
      (fun e => ∃ earlier s later, statements = earlier ++ s :: later ∧
        p.Crosses m earlier s limit ∧ e = ⟨.output, some s.line⟩)
      Machine.console (Machine.within limit) (p.steps m statements)
      (p.steps (m.within limit) statements) := by
  induction statements generalizing m with
  | nil => exact .ok hroom hfits
  | cons s rest ih =>
    have hfirst := (p.bounded_step hroom hfits s.action).onLine s.line
    rw [steps_cons, steps_cons]
    refine Bounded.bind (hfirst.mono ?_) (fun next hnext hroom' hfits' => ?_)
      fun next => p.extends_steps next rest
    · -- the first statement is cut off
      rintro hover e rfl
      refine ⟨[], s, rest, rfl, ⟨hfits, ?_⟩, rfl⟩
      have hone : p.steps m [s] = (p.step m s.action).mapError (Failed.onLine s.line) := by
        rw [steps_cons]
        cases p.step m s.action <;> rfl
      rwa [List.nil_append, hone]
    · -- one of the others is
      have hcons (others : List Statement) : p.steps m (s :: others) = p.steps next others := by
        rw [steps_cons, hnext]
        rfl
      refine (ih hroom' hfits').mono fun _ e he => ?_
      obtain ⟨earlier, t, later, rfl, ⟨hbefore, hafter⟩, rfl⟩ := he
      refine ⟨s :: earlier, t, later, rfl, ⟨?_, ?_⟩, rfl⟩
      · rwa [hcons]
      · rwa [List.cons_append, hcons]

/-! ### Which statement writes a character -/

/-- What the first `count` statements of a program write on an output without a limit. -/
def writtenBy (arguments : List String) (count : ℕ) : String :=
  (Outcome.ofEnded (p.steps (p.start arguments none) (p.statements.take count))).written

/-- The statement at place `i` writes the character at place `n`, both counted from zero: the
statements before it write at most `n` characters, and together with it they write more. -/
def WritesAt (arguments : List String) (i n : ℕ) : Prop :=
  (p.writtenBy arguments i).length ≤ n ∧ n < (p.writtenBy arguments (i + 1)).length

/-- The outcome of a run has written what the run has reached. -/
lemma written_ofEnded (ended : Ended) :
    (Outcome.ofEnded ended).written = (reached Machine.console ended).written := by
  cases ended <;> rfl

/-- More statements write no less. -/
lemma length_writtenBy_le (arguments : List String) {i j : ℕ} (hle : i ≤ j) :
    (p.writtenBy arguments i).length ≤ (p.writtenBy arguments j).length := by
  have hsplit : p.statements.take j =
      p.statements.take i ++ (p.statements.drop i).take (j - i) := by
    rw [← List.take_add, Nat.add_sub_cancel' hle]
  rw [writtenBy, writtenBy, written_ofEnded, written_ofEnded, hsplit]
  exact (p.extends_steps_append _ _ _).length_le

/-- No character is written by two statements. -/
lemma WritesAt.unique {p : Program} {arguments : List String} {i j n : ℕ}
    (hi : p.WritesAt arguments i n) (hj : p.WritesAt arguments j n) : i = j := by
  have hnot {k l : ℕ} (hk : p.WritesAt arguments k n) (hl : p.WritesAt arguments l n) :
      ¬ k < l := by
    intro hlt
    have hle := p.length_writtenBy_le arguments (show k + 1 ≤ l by omega)
    have hafter := hk.2
    have hbefore := hl.1
    omega
  rcases Nat.lt_trichotomy i j with hlt | heq | hgt
  · exact absurd hlt (hnot hi hj)
  · exact heq
  · exact absurd hgt (hnot hj hi)

/-- The statement that a run comes to after some others writes at its place. -/
lemma Crosses.writesAt {p : Program} {arguments : List String} {earlier later : List Statement}
    {s : Statement} {n : ℕ} (h : p.Crosses (p.start arguments none) earlier s n)
    (hsplit : p.statements = earlier ++ s :: later) : p.WritesAt arguments earlier.length n := by
  have hbefore : p.statements.take earlier.length = earlier := by
    rw [hsplit, List.take_left]
  have hafter : p.statements.take (earlier.length + 1) = earlier ++ [s] := by
    have hcons : earlier ++ s :: later = (earlier ++ [s]) ++ later := by simp
    rw [hsplit, hcons, List.take_left' (by simp)]
  rw [WritesAt, writtenBy, writtenBy, written_ofEnded, written_ofEnded, hbefore, hafter]
  exact h

/-- On an output that takes `limit` characters a program writes the first `limit` characters of
what it writes without a limit.  If that is all, then it ends as without a limit.  Otherwise it
ends with an output error, on the line of the one statement that writes the first character that
does not fit. -/
theorem execute_limited (p : Program) (arguments : List String) (limit : ℕ) :
    (p.execute arguments (some limit)).written =
      String.ofList ((p.execute arguments none).written.toList.take limit) ∧
    ((p.execute arguments none).written.length ≤ limit →
      (p.execute arguments (some limit)).error = (p.execute arguments none).error) ∧
    (limit < (p.execute arguments none).written.length →
      ∃ i s, p.statements[i]? = some s ∧ (∀ j, p.WritesAt arguments j limit ↔ j = i) ∧
        (p.execute arguments (some limit)).error = some ⟨.output, some s.line⟩) := by
  have hbounded := p.bounded_steps (m := p.start arguments none) rfl (Nat.zero_le limit)
    p.statements
  have hstart : p.start arguments (some limit) = (p.start arguments none).within limit := rfl
  simp only [execute, hstart, written_ofEnded]
  generalize p.steps (p.start arguments none) p.statements = free at hbounded
  generalize p.steps ((p.start arguments none).within limit) p.statements = limited at hbounded
  cases hbounded with
  | ok hroom hfits =>
    exact ⟨(written_cutOff hfits).symm, fun _ => rfl,
      fun hover => absurd hfits (Nat.not_le_of_lt hover)⟩
  | error hfits =>
    exact ⟨(written_cutOff hfits).symm, fun _ => rfl,
      fun hover => absurd hfits (Nat.not_le_of_lt hover)⟩
  | cut hfull hover =>
    obtain ⟨earlier, s, later, hsplit, hcrosses, rfl⟩ := hfull
    have hplace : p.statements[earlier.length]? = some s := by simp [hsplit]
    have hwrites := hcrosses.writesAt hsplit
    refine ⟨rfl, fun hfits => absurd hfits (Nat.not_le_of_lt hover), fun _ => ?_⟩
    refine ⟨earlier.length, s, hplace, fun j => ⟨fun hj => hj.unique hwrites, ?_⟩, rfl⟩
    rintro rfl
    exact hwrites

/-- Two texts are printed, the second through a format that asks for one more value.  With room for
four characters the run ends before the missing value is noticed, with room for five it does not. -/
theorem execute_limited_missing_value :
    ∃ p : Program, p.execute [] none = ⟨"abcd-", some ⟨.missingValue 2, some 7⟩⟩ ∧
      (p.execute [] (some 4)).written = "abcd" ∧
      (p.execute [] (some 4)).error = some ⟨.output, some 7⟩ ∧
      (p.execute [] (some 5)).error = some ⟨.missingValue 2, some 7⟩ := by
  let p : Program := {
    settings := {}
    constants := [.text "ab", .text "%s-%s", .text "cd"]
    statements := [⟨3, .echo none [.const 0]⟩, ⟨7, .echo (some 1) [.const 2]⟩] }
  have hfree : p.execute [] none = ⟨"abcd-", some ⟨.missingValue 2, some 7⟩⟩ := by decide +kernel
  obtain ⟨hwritten, -, hover⟩ := p.execute_limited [] 4
  obtain ⟨-, hfits, -⟩ := p.execute_limited [] 5
  simp only [hfree] at hwritten hover hfits
  obtain ⟨i, s, hs, hplace, herror⟩ := hover (by decide)
  have hsecond : p.WritesAt [] 1 4 := by
    constructor <;> decide +kernel
  obtain rfl := (hplace 1).1 hsecond
  obtain rfl : _ = s := Option.some.inj hs
  exact ⟨p, hfree, hwritten, herror, hfits (by decide)⟩

end Program

end ColonScript
