import ColonScript.Proofs.Interpreter

/-!
# What was printed stays printed

Nothing that a tree does takes back a part of the output: whether a step succeeds or fails, the
output it comes with continues the output before it (`Tree.extends_interpret`).
-/

namespace ColonScript

namespace Console

/-- An output that another one continues. -/
def Extends (c d : Console) : Prop :=
  ∃ more, d.written = c.written ++ more

/-- The output that a result comes with, successful or not. -/
def reached {ε α : Type} (output : α → Console) : Except (ε × Console) α → Console
  | .ok a => output a
  | .error failed => failed.2

lemma Extends.refl (c : Console) : c.Extends c :=
  ⟨"", String.append_empty.symm⟩

lemma Extends.trans {c d e : Console} (hcd : c.Extends d) (hde : d.Extends e) : c.Extends e := by
  obtain ⟨first, hfirst⟩ := hcd
  obtain ⟨second, hsecond⟩ := hde
  exact ⟨first ++ second, by rw [hsecond, hfirst, String.append_assoc]⟩

/-- Two steps, the second after a success of the first, go on from what was written if each
does. -/
lemma Extends.bind {ε α β : Type} {f : α → Console} {g : β → Console} {c : Console}
    {x : Except (ε × Console) α} {k : α → Except (ε × Console) β} (hx : c.Extends (reached f x))
    (hk : ∀ a, (f a).Extends (reached g (k a))) : c.Extends (reached g (x.bind k)) := by
  cases x with
  | error failed => exact hx
  | ok a => exact hx.trans (hk a)

/-- Writing a text goes on from what was written. -/
lemma extends_write (c : Console) (text : String) : c.Extends (reached id (c.write text)) := by
  unfold write
  split
  · exact ⟨text, rfl⟩
  · split_ifs
    · exact ⟨text, rfl⟩
    · exact ⟨_, rfl⟩

lemma writeAll_cons (c : Console) (text : String) (rest : List String) :
    c.writeAll (text :: rest) = (c.write text).bind fun next => next.writeAll rest := by
  rw [writeAll]
  cases c.write text <;> rfl

/-- Writing some texts goes on from what was written. -/
lemma extends_writeAll (c : Console) (texts : List String) :
    c.Extends (reached id (c.writeAll texts)) := by
  induction texts generalizing c with
  | nil => exact Extends.refl c
  | cons text rest ih =>
    rw [writeAll_cons]
    exact (c.extends_write text).bind ih

end Console

namespace Template

lemma printFrom_literal (taken : ℕ) (c : Console) (text : String) (rest : Template)
    (values : List Value) :
    printFrom taken c (.literal text :: rest) values =
      (c.write text).bind fun next => printFrom taken next rest values := by
  rw [printFrom]
  cases c.write text <;> rfl

lemma printFrom_value (taken : ℕ) (c : Console) (d : Directive) (rest : Template) (v : Value)
    (values : List Value) :
    printFrom taken c (.value d :: rest) (v :: values) =
      (c.write (d.show v)).bind fun next => printFrom (taken + 1) next rest values := by
  rw [printFrom]
  cases c.write (d.show v) <;> rfl

/-- Printing a template goes on from what was written. -/
lemma extends_printFrom (taken : ℕ) (c : Console) (t : Template) (values : List Value) :
    c.Extends (Console.reached id (printFrom taken c t values)) := by
  induction t generalizing taken c values with
  | nil => exact Console.Extends.refl c
  | cons segment rest ih =>
    cases segment with
    | literal text =>
      rw [printFrom_literal]
      exact (c.extends_write text).bind fun next => ih taken next values
    | value d =>
      cases values with
      | nil => exact Console.Extends.refl c
      | cons v more =>
        rw [printFrom_value]
        exact (c.extends_write (d.show v)).bind fun next => ih (taken + 1) next more

end Template

/-- Printing values goes on from what was written. -/
lemma Console.extends_echo (c : Console) (format : Option String) (values : List Value) :
    c.Extends (reached id (c.echo format values)) := by
  cases format with
  | none => exact c.extends_writeAll _
  | some text => exact Template.extends_printFrom 0 c _ values

/-- A node goes on from what was written. -/
lemma Node.extends_interpret (mode : Mode) (m : Machine) (node : Node) :
    m.console.Extends (Console.reached Machine.console (node.interpret mode m)) := by
  cases node with
  | echo token text operands =>
    rw [interpret]
    cases operands.mapM (Operand.eval mode m.store) with
    | error fault => exact Console.Extends.refl _
    | ok values =>
      have hecho := m.console.extends_echo text values
      dsimp only
      cases hprinted : m.console.echo text values <;> rwa [hprinted] at hecho
  | define token type target initial =>
    rw [interpret]
    cases m.store.define mode target.id type initial <;> exact Console.Extends.refl _
  | const token v => exact Console.Extends.refl _
  | format token text => exact Console.Extends.refl _
  | store token text => exact Console.Extends.refl _
  | passthrough token => exact Console.Extends.refl _

/-- A tree goes on from what was written. -/
lemma Tree.extends_interpret (mode : Mode) (m : Machine) (tree : Tree) :
    m.console.Extends (Console.reached Machine.console (tree.interpret mode m)) := by
  induction tree generalizing m with
  | nil => exact Console.Extends.refl _
  | cons node rest ih =>
    have hfirst : m.console.Extends (Console.reached Machine.console
        ((node.interpret mode m).mapError (Failed.onLine node.line))) := by
      have hnode := node.extends_interpret mode m
      cases hresult : node.interpret mode m <;> rwa [hresult] at hnode
    exact hfirst.bind ih

end ColonScript
