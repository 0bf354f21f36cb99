import ColonScript.Proofs.ReferencePlaces
import ColonScript.Proofs.ScriptCalls

/-!
# Formats that stand alone

A `format` that no `echo` has taken is a node of its own, provided that it has a text and that the
token before it goes by the kind name `echo`.  In a source this never happens.

The token before such a `format` would be the last of a block.  It is not an `echo`: an `echo` that
starts a block is not the last token of the block, and one that ends a block was taken as an
operand, so that the `format` with its text would have been taken as the next operand.  What is left
is a command that is spelled like `echo` and is not the keyword, and no source has one.

`EchoClosed` is the invariant between two blocks.  Every block leaves it behind
(`Block.Form.echoClosed`), and so a `format` that stands alone gives away a command of that kind
(`Tree.Blocks.exists_spelled_echo`).
-/

namespace ColonScript

namespace Block

/-- Between the token before and the tokens that come next no `echo` is left that would have gone
on. -/
def EchoClosed (before : Option Token) (rest : List Token) : Prop :=
  ∀ last ∈ before, ∀ t ∈ rest.head?, Continues t → last.isNamed (.keyword .echo) = false

/-- A token of one keyword is of no other. -/
lemma isNamed_keyword_ne {t : Token} {k l : Keyword} (hk : t.isNamed (.keyword k) = true)
    (hne : k ≠ l) : t.isNamed (.keyword l) = false := by
  obtain ⟨argument, hkind⟩ := isNamed_keyword_iff.1 hk
  apply isNamed_keyword_eq_false
  intro other hother
  rw [hkind] at hother
  simp [hne] at hother

/-- A value is not an `echo`. -/
lemma isNamed_echo_of_value {t : Token} (h : t.group = .value) :
    t.isNamed (.keyword .echo) = false := by
  apply isNamed_keyword_eq_false
  intro argument hkind
  rw [Token.group_of_kind hkind] at h
  simp [Group.ofKeyword] at h

/-- The last token of a definition is its target or its initial value, and neither is an `echo`. -/
lemma InitialForm.last_ne_echo {initial : Option Operand} {taken rest : List Token}
    (h : InitialForm initial taken rest) {target : Token} {r : Reference}
    (htarget : target.kind = .reference r) :
    ∀ last ∈ (target :: taken).getLast?, last.isNamed (.keyword .echo) = false := by
  intro last hlast
  cases h with
  | @stored store value _ _ _ hgroup _ =>
    obtain rfl : value = last := Option.some.inj hlast
    exact isNamed_echo_of_value hgroup
  | absent =>
    obtain rfl : target = last := Option.some.inj hlast
    simp [Token.isNamed, htarget]

/-- A block leaves no `echo` behind that would have gone on. -/
lemma Form.echoClosed {before : Option Token} {node : Node} {block rest : List Token}
    (h : Form before node block rest) : EchoClosed block.getLast? rest := by
  intro last hlast t ht hcontinues
  -- a block of one token ends with the token that it starts with
  have hsingle {u : Token} (hu : [u].getLast? = some last) : u = last := Option.some.inj hu
  cases h with
  | echo _ _ hrun => exact absurd hcontinues (hrun.stops t ht)
  | define _ _ _ htarget _ hinitial => exact hinitial.last_ne_echo htarget last hlast
  | const hname =>
    obtain rfl := hsingle hlast
    exact isNamed_keyword_ne hname (by decide)
  | format hname =>
    obtain rfl := hsingle hlast
    exact isNamed_keyword_ne hname (by decide)
  | store hname =>
    obtain rfl := hsingle hlast
    exact isNamed_keyword_ne hname (by decide)
  | passthrough hname =>
    obtain rfl := hsingle hlast
    exact hname .echo (by simp [ruled])

/-- Where no `echo` is left open, a `format` that stands alone comes after a command that is only
spelled like one. -/
lemma Form.exists_spelled_echo {before : Option Token} {token : Token} {text : String}
    {block rest : List Token} (h : Form before (.format token text) block rest)
    (hclosed : EchoClosed before (block ++ rest)) :
    ∃ last ∈ before, last.kindName = "echo" ∧ last.isNamed (.keyword .echo) = false := by
  cases h with
  | format _ harg hbefore =>
    obtain ⟨last, hlast, hname⟩ := Option.map_eq_some_iff.1 hbefore
    have hcontinues : Continues token := .inr (by simp [harg])
    exact ⟨last, hlast, hname, hclosed last hlast token rfl hcontinues⟩

end Block

namespace Tree

/-- A tree with a `format` that stands alone is made from tokens with a command that is only
spelled like an `echo`. -/
lemma Blocks.exists_spelled_echo {before : Option Token} {tokens : List Token} {tree : Tree}
    {blocks : List (List Token)} (h : Blocks before tokens tree blocks)
    (hclosed : Block.EchoClosed before tokens) {token : Token} {text : String}
    (hmem : .format token text ∈ tree) :
    ∃ t ∈ before.toList ++ tokens,
      t.kindName = "echo" ∧ t.isNamed (.keyword .echo) = false := by
  induction tree generalizing before tokens blocks with
  | nil => simp at hmem
  | cons node nodes ih =>
    obtain ⟨block, later, rfl, rfl, hform, hlater⟩ := blocks_cons_iff.1 h
    rcases List.mem_cons.1 hmem with rfl | hmem
    · obtain ⟨last, hlast, hspelled⟩ := hform.exists_spelled_echo hclosed
      exact ⟨last, List.mem_append_left _ (Option.mem_toList.2 hlast), hspelled⟩
    · obtain ⟨t, ht, hspelled⟩ := ih hlater hform.echoClosed hmem
      refine ⟨t, List.mem_append_right _ ?_, hspelled⟩
      rcases List.mem_append.1 ht with hlast | hrest
      · exact List.mem_append_left _ (List.mem_of_getLast? (Option.mem_toList.1 hlast))
      · exact List.mem_append_right _ hrest

/-- No `format` stands alone in the tree of a source. -/
theorem format_notMem_ofSource {source : String} {tree : Tree}
    (h : ofSource source = .ok tree) (token : Token) (text : String) :
    Node.format token text ∉ tree := by
  intro hmem
  obtain ⟨⟨tokens, _⟩, hparse, rfl⟩ := map_eq_ok_iff.1 h
  obtain ⟨htokens, -, hbuilt⟩ := parse_eq_ok_iff.1 hparse
  obtain ⟨blocks, hblocks⟩ := exists_blocks_of_ofTokensAfter hbuilt
  obtain ⟨t, ht, hname, hnot⟩ := hblocks.exists_spelled_echo (fun _ hlast => nomatch hlast) hmem
  have hlexical := Source.lexical_of_tokenize htokens
  have hvar : t.kindName ≠ "var" := by
    rw [hname]
    decide
  have hkeyword : t.isNamed (.keyword .echo) = true :=
    hlexical.isNamed_keyword (by simpa using ht) hname hvar
  rw [hnot] at hkeyword
  exact Bool.noConfusion hkeyword

/-- An `echo` that was taken as an operand, with a `format` right after it: the `format` is the next
operand. -/
theorem format_notMem_ofSource_taken_echo :
    ∃ tree, ofSource ":echo:~0:echo@\"x\":format@\"%s\"" = .ok tree ∧
      ∀ token text, Node.format token text ∉ tree := by
  let echo : Token := ⟨.command ⟨.keyword .echo, none⟩, 1⟩
  have h : ofSource ":echo:~0:echo@\"x\":format@\"%s\"" = .ok [.echo echo none
      [.reference ⟨.var, .index 0, false⟩, .literal (.text "x"), .literal (.text "%s")]] := by
    decide +kernel
  exact ⟨_, h, format_notMem_ofSource h⟩

end Tree

end ColonScript
