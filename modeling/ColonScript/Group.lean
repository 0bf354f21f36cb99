import ColonScript.Token

/-!
# Groups of tokens

Every token belongs to a group by its kind name.  References belong to the group of values,
and so does a command that happens to be called `var`.
-/

namespace ColonScript

/-- What a token is for. -/
inductive Group where
  | attribution | dataType | dataStructure | value | output | scope | decision | loop | modifier
  | unknown
deriving DecidableEq, Repr

namespace Group

/-- The name of a group in messages. -/
def name : Group → String
  | attribution => "attribution"
  | dataType => "data_type"
  | dataStructure => "data_structure"
  | value => "value"
  | output => "output"
  | scope => "scope"
  | decision => "decision"
  | loop => "loop"
  | modifier => "modifier"
  | unknown => "unknown"

/-- The group of a keyword. -/
def ofKeyword : Keyword → Group
  | .define => attribution
  | .func | .fn | .static | .dynamic | .text => dataType
  | .list | .dict | .obj => dataStructure
  | .const | .trueValue | .falseValue | .nullValue => value
  | .echo => output
  | .scope | .endScope => scope
  | .caseOf => decision
  | .cycle | .repeatLoop => loop
  | .format | .store | .toMark | .fromMark | .throughMark | .intoMark => modifier

/-- The group of a kind name. -/
def ofKindName (kindName : String) : Group :=
  if kindName = "var" then value
  else match Keyword.ofWord? kindName with
    | some k => ofKeyword k
    | none => unknown

end Group

/-- The group of a token. -/
def Token.group (t : Token) : Group :=
  Group.ofKindName t.kindName

/-- A classifier remembers the group of each kind name that it has been asked for. -/
structure Classifier where
  known : List (String × Group)
  /-- What is remembered for a kind name is its group. -/
  sound : ∀ entry ∈ known, entry.2 = Group.ofKindName entry.1

namespace Classifier

/-- A classifier that has not been asked yet. -/
def new : Classifier where
  known := []
  sound := by simp

/-- The group of a kind name, and the classifier that remembers it. -/
def classify (c : Classifier) (kindName : String) : Group × Classifier :=
  match c.known.lookup kindName with
  | some group => (group, c)
  | none =>
    let group := Group.ofKindName kindName
    (group, ⟨(kindName, group) :: c.known, List.forall_mem_cons.2 ⟨rfl, c.sound⟩⟩)

/-- The number of kind names asked for so far. -/
def size (c : Classifier) : Nat :=
  c.known.length

end Classifier

end ColonScript
