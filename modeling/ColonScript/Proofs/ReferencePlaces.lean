import ColonScript.Program.Source
import ColonScript.Proofs.BlockGrammar
import ColonScript.Proofs.RoundTrip

/-!
# The places of references

A `store` must come right after a reference, and a definition takes its initial value from a
reference or from one of the commands `const`, `true`, `false` and `null`.  Both rules are checked
on kind names and groups.  References go by the kind name `var`, and nothing keeps a command from
being called `var` as well.

`Tree.ReferencePlaces` states the two rules for any notion of what counts as a variable.  In a
source that is built into a tree they hold if commands called `var` count, and they hold of
references alone if there is no such command (`Tree.ofSource_referencePlaces`).  Keywords are never
mistaken: a command of a source that is spelled like a keyword is that keyword.
-/

namespace ColonScript

/-- The keywords that are values. -/
def Keyword.values : List Keyword := [.const, .trueValue, .falseValue, .nullValue]

lemma Group.ofKeyword_eq_value_iff {k : Keyword} :
    Group.ofKeyword k = .value ↔ k ∈ Keyword.values := by
  cases k <;> decide

namespace Token

/-! ### Tokens with the kind name of references -/

/-- A token that is a reference. -/
def IsReference (t : Token) : Prop := ∃ r, t.kind = .reference r

/-- The kind name of references is shared by the commands that are called `var`. -/
lemma kindName_eq_var_iff {t : Token} :
    t.kindName = "var" ↔ t.IsReference ∨ t.isNamed (.other "var") = true := by
  obtain ⟨kind, line⟩ := t
  cases kind with
  | reference r => exact ⟨fun _ => .inl ⟨r, rfl⟩, fun _ => rfl⟩
  | command c =>
    obtain ⟨name, argument⟩ := c
    have hnot : ¬ IsReference ⟨.command ⟨name, argument⟩, line⟩ := fun ⟨r, hr⟩ => by simp at hr
    rw [or_iff_right hnot]
    cases name with
    | keyword k =>
      have hword : k.word ≠ "var" := by cases k <;> decide
      simpa [kindName, isNamed, CommandName.word] using hword
    | other w => simp [kindName, isNamed, CommandName.word]

/-- Values are the tokens with the kind name of references, and the commands that are spelled like
a keyword for values. -/
lemma group_eq_value_iff {t : Token} :
    t.group = .value ↔ t.kindName = "var" ∨ ∃ k ∈ Keyword.values, t.kindName = k.word := by
  unfold group Group.ofKindName
  split_ifs with hvar
  · simp [hvar]
  · simp only [hvar, false_or]
    constructor
    · intro hgroup
      split at hgroup
      · next k hfound =>
        have hword : k.word = t.kindName := by simpa using List.find?_some hfound
        exact ⟨k, Group.ofKeyword_eq_value_iff.1 hgroup, hword.symm⟩
      · simp at hgroup
    · rintro ⟨k, hk, hword⟩
      rw [hword, Keyword.ofWord?_word]
      exact Group.ofKeyword_eq_value_iff.2 hk

end Token

/-! ### Commands of a source -/

/-- A command is read by the spelling of its name, so it is a keyword wherever it can be. -/
lemma Grammar.CommandForm.ofWord_word {c : Command} {text rest : List Char}
    (h : CommandForm c text rest) : CommandName.ofWord c.name.word = c.name := by
  cases h <;> simp [nameOf]

namespace Source

/-- A command of a source that is spelled like a keyword is that keyword. -/
lemma Lexical.isNamed_keyword {tokens : List Token} (h : Lexical tokens) {t : Token}
    (ht : t ∈ tokens) {k : Keyword} (hword : t.kindName = k.word) (hvar : t.kindName ≠ "var") :
    t.isNamed (.keyword k) = true := by
  have hform := h t ht
  obtain ⟨kind, line⟩ := t
  cases hform with
  | reference hreference => exact absurd rfl hvar
  | @command c _ _ hcommand =>
    have hspelled : c.name.word = k.word := hword
    have hkeyword : c.name = .keyword k := by
      rw [← hcommand.ofWord_word, hspelled, CommandName.ofWord, Keyword.ofWord?_word]
    simp [Token.isNamed, hkeyword]

/-- The tokens of a source are spelled as they are read. -/
lemma lexical_of_tokenize {source : String} {tokens : List Token}
    (h : Token.tokenize source = .ok tokens) : Lexical tokens := by
  have hne : source ≠ "" := by
    rintro rfl
    simp [Token.tokenize, Lexeme.scan, Except.map] at h
  rw [Token.tokenize_eq hne] at h
  obtain rfl := Except.ok.inj h
  exact lexical_readFrom _ _

end Source

namespace Tree

/-! ### The two rules -/

/-- Every `store` comes right after a variable, and every initial value is made from a variable or
from a command that is a value; `isVariable` says what counts as a variable. -/
def ReferencePlaces (isVariable : Token → Prop) (tokens : List Token) (tree : Tree) : Prop :=
  ∃ blocks, Blocks none tokens tree blocks ∧
    ∀ earlier block later, blocks = earlier ++ block :: later →
      (∀ token text, tree[earlier.length]? = some (.store token text) →
        ∃ previous ∈ earlier.flatten.getLast?, isVariable previous) ∧
      ∀ token type target o, tree[earlier.length]? = some (.define token type target (some o)) →
        ∃ value ∈ block.getLast?, Block.Denotes value o ∧
          (isVariable value ∨ ∃ k ∈ Keyword.values, value.isNamed (.keyword k) = true)

/-- The more counts as a variable, the weaker the rules are. -/
lemma ReferencePlaces.mono {p q : Token → Prop} {tokens : List Token} {tree : Tree}
    (h : ReferencePlaces p tokens tree) (himp : ∀ t ∈ tokens, p t → q t) :
    ReferencePlaces q tokens tree := by
  obtain ⟨blocks, hblocks, hplaces⟩ := h
  refine ⟨blocks, hblocks, fun earlier block later hsplit => ?_⟩
  have hwhole : tokens = earlier.flatten ++ (block ++ later.flatten) := by
    rw [← hblocks.whole, hsplit, List.flatten_append, List.flatten_cons]
  obtain ⟨hstore, hdefine⟩ := hplaces earlier block later hsplit
  constructor
  · intro token text hnode
    obtain ⟨previous, hlast, hvariable⟩ := hstore token text hnode
    have hmem : previous ∈ tokens := by
      rw [hwhole]
      exact List.mem_append_left _ (List.mem_of_getLast? hlast)
    exact ⟨previous, hlast, himp previous hmem hvariable⟩
  · intro token type target o hnode
    obtain ⟨value, hlast, hdenotes, hvalue⟩ := hdefine token type target o hnode
    have hmem : value ∈ tokens := by
      rw [hwhole]
      exact List.mem_append_right _ (List.mem_append_left _ (List.mem_of_getLast? hlast))
    exact ⟨value, hlast, hdenotes, hvalue.imp_left (himp value hmem)⟩

/-- In tokens of a source, the tokens at the two places have the kind name of references or are
commands that are values. -/
lemma referencePlaces_kindName {tokens : List Token} {tree : Tree}
    (hlexical : Source.Lexical tokens) (htree : ofTokens tokens = .ok tree) :
    ReferencePlaces (fun t => t.kindName = "var") tokens tree := by
  obtain ⟨blocks, hblocks⟩ := exists_blocks_of_ofTokensAfter htree
  refine ⟨blocks, hblocks, fun earlier block later hsplit => ?_⟩
  obtain ⟨node, hnode, hform⟩ := hblocks.form earlier block later hsplit
  rw [Option.mem_def.1 hnode]
  constructor
  · rintro token text ⟨⟩
    cases hform with
    | store hname harg hbefore =>
      obtain ⟨previous, hlast, hvar⟩ := Option.map_eq_some_iff.1 hbefore
      exact ⟨previous, hlast, hvar⟩
  · rintro token type target o ⟨⟩
    cases hform with
    | define hname hgroup htype htarget hvar hinitial =>
      cases hinitial with
      | @stored store value _ _ hstore hvalue hdenotes =>
        refine ⟨value, rfl, hdenotes, or_iff_not_imp_left.2 fun hother => ?_⟩
        obtain ⟨k, hk, hword⟩ := (Token.group_eq_value_iff.1 hvalue).resolve_left hother
        have hmem : value ∈ tokens := by
          rw [← hblocks.whole, hsplit]
          simp
        exact ⟨k, hk, hlexical.isNamed_keyword hmem hword hother⟩

/-- In a source that is built into a tree, a `store` comes right after a reference or a command
called `var`, and an initial value is made from one of these or from a command that is a value.
Where no command is called `var`, only references are left. -/
theorem ofSource_referencePlaces {source : String} {tokens : List Token} {tree : Tree}
    (htokens : Token.tokenize source = .ok tokens) (htree : ofSource source = .ok tree) :
    ReferencePlaces (fun t => t.IsReference ∨ t.isNamed (.other "var") = true) tokens tree ∧
      ((∀ t ∈ tokens, t.isNamed (.other "var") = false) →
        ReferencePlaces Token.IsReference tokens tree) := by
  obtain ⟨⟨found, _⟩, hparse, rfl⟩ := map_eq_ok_iff.1 htree
  obtain ⟨hfound, -, hbuilt⟩ := parse_eq_ok_iff.1 hparse
  obtain rfl := Except.ok.inj (htokens.symm.trans hfound)
  have hplaces := referencePlaces_kindName (Source.lexical_of_tokenize htokens) hbuilt
  refine ⟨hplaces.mono fun t _ => Token.kindName_eq_var_iff.1, fun hnone => ?_⟩
  refine hplaces.mono fun t ht hvar => (Token.kindName_eq_var_iff.1 hvar).resolve_right ?_
  simp [hnone t ht]

/-- A definition with a `const`, and a `store` after the variable that was defined. -/
theorem ofSource_referencePlaces_store :
    ∃ tokens tree, Token.tokenize ":define:static:~0:store:const@1:~0:store@\"x\"" = .ok tokens ∧
      ofSource ":define:static:~0:store:const@1:~0:store@\"x\"" = .ok tree ∧
      (∀ t ∈ tokens, t.isNamed (.other "var") = false) ∧
      ReferencePlaces Token.IsReference tokens tree := by
  let command (k : Keyword) (argument : Option Argument) : Token :=
    ⟨.command ⟨.keyword k, argument⟩, 1⟩
  let variable0 : Reference := ⟨.var, .index 0, false⟩
  let tokens : List Token := [command .define none, command .static none,
    ⟨.reference variable0, 1⟩, command .store none, command .const (some ⟨.static, "1"⟩),
    ⟨.reference variable0, 1⟩, command .store (some ⟨.text, "x"⟩)]
  let tree : Tree := [
    .define (command .define none) .static variable0 (some (.literal (.static 1))),
    .passthrough ⟨.reference variable0, 1⟩, .store (command .store (some ⟨.text, "x"⟩)) "x"]
  have htokens : Token.tokenize ":define:static:~0:store:const@1:~0:store@\"x\"" = .ok tokens := by
    decide +kernel
  have htree : ofSource ":define:static:~0:store:const@1:~0:store@\"x\"" = .ok tree := by
    decide +kernel
  have hnone : ∀ t ∈ tokens, t.isNamed (.other "var") = false := by decide
  exact ⟨tokens, tree, htokens, htree, hnone, (ofSource_referencePlaces htokens htree).2 hnone⟩

/-- A command called `var` can stand before a `store` and can be the initial value of a definition.
In neither case is there a reference at the place. -/
theorem ofSource_var_command :
    (∃ tokens tree, Token.tokenize ":var:store@\"x\"" = .ok tokens ∧
      ofSource ":var:store@\"x\"" = .ok tree ∧ ¬ ReferencePlaces Token.IsReference tokens tree) ∧
    ∃ tokens tree, Token.tokenize ":define:static:~0:store:var@5" = .ok tokens ∧
      ofSource ":define:static:~0:store:var@5" = .ok tree ∧
      ¬ ReferencePlaces Token.IsReference tokens tree := by
  let command (name : CommandName) (argument : Option Argument) : Token :=
    ⟨.command ⟨name, argument⟩, 1⟩
  have hnot (name : CommandName) (argument : Option Argument) :
      ¬ (command name argument).IsReference := fun ⟨r, hr⟩ => by simp [command] at hr
  constructor
  · let var := command (.other "var") none
    let store := command (.keyword .store) (some ⟨.text, "x"⟩)
    refine ⟨[var, store], [.passthrough var, .store store "x"], ?_, ?_, ?_⟩
    · decide +kernel
    · decide +kernel
    · rintro ⟨blocks, hblocks, hplaces⟩
      obtain ⟨first, second, rfl⟩ := List.length_eq_two.1 <| by
        simpa using congrArg List.length hblocks.first
      obtain ⟨hfirst, hsecond⟩ : first.head? = some var ∧ second.head? = some store := by
        simpa [Node.token] using hblocks.first
      obtain ⟨more, rfl⟩ := List.head?_eq_some_iff.1 hfirst
      obtain ⟨after, rfl⟩ := List.head?_eq_some_iff.1 hsecond
      obtain ⟨rfl, rfl⟩ : more = [] ∧ after = [] := by
        simpa [List.append_eq_singleton_iff] using hblocks.whole
      obtain ⟨previous, hlast, hreference⟩ := (hplaces [[var]] [store] [] rfl).1 store "x" rfl
      obtain rfl : var = previous := Option.some.inj hlast
      exact hnot _ _ hreference
  · let target : Reference := ⟨.var, .index 0, false⟩
    let define := command (.keyword .define) none
    let value := command (.other "var") (some ⟨.static, "5"⟩)
    let tokens : List Token := [define, command (.keyword .static) none,
      ⟨.reference target, 1⟩, command (.keyword .store) none, value]
    refine ⟨tokens, [.define define .static target (some (.literal (.static 5)))], ?_, ?_, ?_⟩
    · decide +kernel
    · decide +kernel
    · rintro ⟨blocks, hblocks, hplaces⟩
      obtain ⟨block, rfl⟩ := List.length_eq_one_iff.1 <| by
        simpa using congrArg List.length hblocks.first
      obtain rfl : block = tokens := by simpa using hblocks.whole
      obtain ⟨last, hlast, -, hvalue⟩ := (hplaces [] tokens [] rfl).2 define .static target _ rfl
      obtain rfl : value = last := Option.some.inj hlast
      rcases hvalue with hreference | ⟨k, -, hnamed⟩
      · exact hnot _ _ hreference
      · simp [value, command, Token.isNamed] at hnamed

end Tree

end ColonScript
