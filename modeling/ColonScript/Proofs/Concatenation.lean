import ColonScript.Lexeme
import ColonScript.Proofs.BlockGrammar

/-!
# Programs one after the other

Tokens that can be built on their own can be followed by others, and the two parts are built as if
each stood alone, provided that the second part starts with a token that no block goes on with
(`Token.StartsAnew`).  This needs two facts.

* No block of the first part changes.  Only the last blocks look at what comes next, an `echo` for
  more operands and a definition for a `store` and a value, and such a token is neither
  (`Block.Form.append`).
* The second part does not notice the first.  Only a `format` and a `store` look at the token
  before, and they look at their own text first, which such a token does not have
  (`Block.next_congr_before`).

The main result is `Tree.ofTokens_append`; it covers failures of the second part as well.
-/

namespace ColonScript

/-- A token that no block before it goes on with: it is not a value, it has no argument, and it is
not a `store`. -/
structure Token.StartsAnew (t : Token) : Prop where
  group_ne : t.group ≠ .value
  argument_eq : t.argument? = none
  kindName_ne : t.kindName ≠ "store"

namespace Block

variable {t : Token}

lemma not_continues_of_startsAnew (ht : t.StartsAnew) : ¬ Continues t := by
  rintro (hgroup | harg)
  · exact ht.group_ne hgroup
  · exact harg ht.argument_eq

/-! ### The first part does not change -/

/-- The format of an `echo` is found before the tokens that are added at the end. -/
lemma FormatForm.append {echo : Token} {text : Option String} {taken rest : List Token}
    (h : FormatForm echo text taken rest) (more : List Token) :
    FormatForm echo text taken (rest ++ more) := by
  cases h with
  | own harg hnext => exact .own harg hnext
  | separate hown hformat harg => exact .separate hown hformat harg
  | absent hown hnext => exact .absent hown hnext

/-- Operands end where they did before. -/
lemma OperandRun.append {operands : List Operand} {run rest : List Token}
    (h : OperandRun operands run rest) (ht : t.StartsAnew) (more : List Token) :
    OperandRun operands run (rest ++ t :: more) := by
  refine ⟨h.ne_nil, h.all, fun u hu => ?_, h.denotes⟩
  cases rest with
  | nil =>
    obtain rfl : t = u := Option.some.inj hu
    exact not_continues_of_startsAnew ht
  | cons s others => exact h.stops u hu

/-- No initial value comes up where there was none before. -/
lemma not_storeFollows_append {rest : List Token} (h : ¬ StoreFollows rest) (ht : t.StartsAnew)
    (more : List Token) : ¬ StoreFollows (rest ++ t :: more) := by
  match rest, more with
  | [], [] => exact id
  | [], _ :: _ => exact fun hstore => ht.kindName_ne hstore.1
  | [_], _ => exact fun hstore => ht.group_ne hstore.2
  | _ :: _ :: _, _ => exact h

/-- A block has the same form in front of more tokens. -/
lemma Form.append {before : Option Token} {node : Node} {block rest : List Token}
    (h : Form before node block rest) (ht : t.StartsAnew) (more : List Token) :
    Form before node block (rest ++ t :: more) := by
  cases h with
  | echo hname hformat hrun =>
    refine .echo hname ?_ (hrun.append ht more)
    rw [← List.append_assoc]
    exact hformat.append _
  | define hname hgroup htype htarget hvar hinitial =>
    refine .define hname hgroup htype htarget hvar ?_
    cases hinitial with
    | stored hstore hvalue hdenotes => exact .stored hstore hvalue hdenotes
    | absent hnot => exact .absent (not_storeFollows_append hnot ht more)
  | const hname harg hvalue => exact .const hname harg hvalue
  | format hname harg hbefore => exact .format hname harg hbefore
  | store hname harg hbefore => exact .store hname harg hbefore
  | passthrough hname => exact .passthrough hname

/-- A block that can be taken is also taken in front of more tokens. -/
lemma next_append {before : Option Token} {first : Token} {rest : List Token} {b : Block}
    (h : next before first rest = .ok b) (ht : t.StartsAnew) (more : List Token) :
    next before first (rest ++ t :: more) = .ok { b with rest := b.rest ++ t :: more } := by
  have hlonger := next_of_form ((form_of_next h).append ht more)
  rwa [← List.append_assoc, tail_append_rest h] at hlonger

/-! ### The second part does not notice the first -/

/-- A modifier without an argument is refused whatever comes before it. -/
lemma modifierText_of_argument_eq_none (harg : t.argument? = none) (before : Option Token)
    (kindName : String) : modifierText before t kindName = broken .argumentRequired t := by
  simp only [modifierText, requireText, requireArgument, harg, broken]

/-- The block of a token without an argument does not depend on the token before it. -/
lemma next_congr_before (harg : t.argument? = none) (before other : Option Token)
    (rest : List Token) : next before t rest = next other t rest := by
  have hsingle : single before t = single other t := by
    simp only [single, modifierText_of_argument_eq_none harg]
  simp only [next, hsingle]

end Block

namespace Tree

variable {t : Token}

/-- Tokens that start anew are built as if they stood alone. -/
lemma ofTokensAfter_of_startsAnew (ht : t.StartsAnew) (before : Option Token)
    (more : List Token) : ofTokensAfter before (t :: more) = ofTokens (t :: more) := by
  rw [ofTokens, ofTokensAfter_cons, ofTokensAfter_cons,
    Block.next_congr_before ht.argument_eq before none]

/-- The nodes of some tokens come before those of the tokens that start anew after them. -/
lemma ofTokensAfter_append {before : Option Token} {a : List Token} {first : Tree}
    (ha : ofTokensAfter before a = .ok first) (ht : t.StartsAnew) (more : List Token) :
    ofTokensAfter before (a ++ t :: more) = (ofTokens (t :: more)).map (first ++ ·) := by
  induction first generalizing before a with
  | nil =>
    cases a with
    | nil =>
      rw [List.nil_append, ofTokensAfter_of_startsAnew ht]
      cases ofTokens (t :: more) <;> rfl
    | cons start rest =>
      obtain ⟨b, nodes, -, -, hcons⟩ := ofTokensAfter_cons_eq_ok_iff.1 ha
      simp at hcons
  | cons node nodes ih =>
    cases a with
    | nil => simp [ofTokensAfter] at ha
    | cons start rest =>
      obtain ⟨b, nodes', hnext, hafter, hcons⟩ := ofTokensAfter_cons_eq_ok_iff.1 ha
      obtain ⟨rfl, rfl⟩ := List.cons.inj hcons
      rw [List.cons_append, ofTokensAfter_cons, Block.next_append hnext ht]
      have hrest := ih hafter
      simp only [Except.bind, hrest]
      cases ofTokens (t :: more) <;> rfl

/-- Programs can be put one after the other.  If tokens are built into a tree, and other tokens
start with one that is not a value, has no argument and is not a `store`, then the two parts
together are built into the nodes of the first and then those of the second; and if the second part
cannot be built, then the two together fail with the same error. -/
theorem ofTokens_append {a b : List Token} {first : Tree} (ha : ofTokens a = .ok first)
    (hb : b.head? = some t) (hgroup : t.group ≠ .value) (harg : t.argument? = none)
    (hstore : t.kindName ≠ "store") :
    (∀ second, ofTokens b = .ok second → ofTokens (a ++ b) = .ok (first ++ second)) ∧
      ∀ e, ofTokens b = .error e → ofTokens (a ++ b) = .error e := by
  obtain ⟨more, rfl⟩ := List.head?_eq_some_iff.1 hb
  have happend := ofTokensAfter_append ha ⟨hgroup, harg, hstore⟩ more
  constructor
  · intro second hsecond
    rwa [hsecond] at happend
  · intro e he
    rwa [he] at happend

/-- A definition and the `store` after it do not go on with what comes next: neither with an `echo`
of the variable nor with tokens that cannot be built. -/
theorem ofTokens_append_after_store :
    ∃ a b c first second e, Token.tokenize ":define:static:~0:store@\"x\"" = .ok a ∧
      Token.tokenize ":echo:~0" = .ok b ∧ Token.tokenize ":scope:echo" = .ok c ∧
      ofTokens a = .ok first ∧ ofTokens b = .ok second ∧ ofTokens c = .error e ∧
      ofTokens (a ++ b) = .ok (first ++ second) ∧ ofTokens (a ++ c) = .error e := by
  let command (k : Keyword) (argument : Option Argument) : Token :=
    ⟨.command ⟨.keyword k, argument⟩, 1⟩
  let variable0 : Reference := ⟨.var, .index 0, false⟩
  let a : List Token := [command .define none, command .static none, ⟨.reference variable0, 1⟩,
    command .store (some ⟨.text, "x"⟩)]
  let first : Tree := [.define (command .define none) .static variable0 none,
    .store (command .store (some ⟨.text, "x"⟩)) "x"]
  have ha : ofTokens a = .ok first := by decide +kernel
  have hb : ofTokens [command .echo none, ⟨.reference variable0, 1⟩] =
      .ok [.echo (command .echo none) none [.reference variable0]] := by decide +kernel
  have hc : ofTokens [command .scope none, command .echo none] =
      .error (.violation (.ofToken .cannotBeLast (command .echo none))) := by decide +kernel
  refine ⟨a, _, _, first, _, _, ?_, ?_, ?_, ha, hb, hc, ?_, ?_⟩
  · decide +kernel
  · decide +kernel
  · decide +kernel
  · exact (ofTokens_append ha rfl (by decide) rfl (by decide)).1 _ hb
  · exact (ofTokens_append ha rfl (by decide) rfl (by decide)).2 _ hc

end Tree

end ColonScript
