import ColonScript.CommandLine
import ColonScript.Proofs.BlockGrammar
import Mathlib.Data.List.Induction

/-!
# Files one by one

The words of a command line are read in one pass, in which options, their values and the paths of
files may stand in any order up to the first `--`.  `Line` is such a command line as a list of
parts, and `Line.options` says what the parts come to: whether checks are left out, the last depth,
the paths in order, and the words after the `--`.  Words can be read exactly if they are the words
of a line, and they are read as its options (`Options.read?_eq_some_iff`).

The files are then worked on one after the other, and the report grows with each of them.
`Report.ofFiles` is the report on some files at once.  It puts together what the task gives for each
file on its own (`processAll_eq`), so that the report on one file is the one that it has alone.
-/

namespace ColonScript.CommandLine

/-! ### Command lines by their parts -/

/-- A part of a command line before its `--`. -/
inductive Part where
  /-- Leave out the checks. -/
  | unchecked
  /-- A depth, as a word. -/
  | maxDepth (word : String)
  /-- The path of a file. -/
  | file (path : String)
deriving DecidableEq

namespace Part

/-- The words of a part. -/
def words : Part → List String
  | unchecked => ["--unchecked"]
  | maxDepth word => ["--max-depth", word]
  | file path => [path]

/-- The number of a depth. -/
def depth? : Part → Option ℕ
  | maxDepth word => Decimal.word64? word.toList
  | _ => none

/-- The path of a file. -/
def path? : Part → Option String
  | file path => some path
  | _ => none

/-- A part that can be told from the others: a depth is a number, and a path is none of the words
with a meaning of their own. -/
def WellSpelled : Part → Prop
  | unchecked => True
  | maxDepth word => Decimal.word64? word.toList ≠ none
  | file path => path ∉ ["--unchecked", "--max-depth", "--"]

end Part

/-- A command line after its command: parts, and the words after a `--` if there is one. -/
structure Line where
  parts : List Part
  tail : Option (List String)

namespace Line

/-- The words of a line. -/
def words (line : Line) : List String :=
  line.parts.flatMap Part.words ++ (line.tail.map ("--" :: ·)).getD []

/-- The paths of a line. -/
def files (line : Line) : List String :=
  line.parts.filterMap Part.path?

/-- What a line adds to some options. -/
def addTo (o : Options) (line : Line) : Options where
  settings := {
    mode := if .unchecked ∈ line.parts then .unchecked else o.settings.mode
    maxDepth := (line.parts.filterMap Part.depth?).getLast?.getD o.settings.maxDepth }
  files := o.files ++ line.files
  arguments := line.tail.getD o.arguments

/-- What a line says. -/
def options (line : Line) : Options :=
  addTo {} line

/-- A line with parts that can be told apart. -/
def WellSpelled (line : Line) : Prop :=
  ∀ part ∈ line.parts, part.WellSpelled

/-- The parts of a line that are not files. -/
def choices (line : Line) : List Part :=
  line.parts.filter (·.path?.isNone)

/-- The line with the same choices and one file only. -/
def alone (line : Line) (path : String) : Line :=
  { line with parts := line.choices ++ [.file path] }

/-- The same choices and the same files, each in their order, and the same words after the `--`;
only where the choices stand among the files may differ. -/
structure Rearranged (line other : Line) : Prop where
  choices_eq : other.choices = line.choices
  files_eq : other.files = line.files
  tail_eq : other.tail = line.tail

lemma words_cons (part : Part) (parts : List Part) (tail : Option (List String)) :
    words ⟨part :: parts, tail⟩ = part.words ++ words ⟨parts, tail⟩ := by
  simp [words]

end Line

namespace Options

/-- What a part adds to some options. -/
def add (o : Options) : Part → Options
  | .unchecked => { o with settings.mode := .unchecked }
  | .maxDepth word =>
    { o with settings.maxDepth := (Decimal.word64? word.toList).getD o.settings.maxDepth }
  | .file path => { o with files := o.files ++ [path] }

/-- A part that can be told from the others is read as itself. -/
lemma read?_append (o : Options) {part : Part} (h : part.WellSpelled) (rest : List String) :
    read? o (part.words ++ rest) = read? (o.add part) rest := by
  cases part with
  | unchecked => simp [Part.words, read?, add]
  | maxDepth word =>
    obtain ⟨n, hn⟩ := Option.ne_none_iff_exists'.1 h
    simp [Part.words, read?, add, hn]
  | file path =>
    simp only [Part.WellSpelled, List.mem_cons, List.not_mem_nil, or_false, not_or] at h
    obtain ⟨hunchecked, hdepth, hend⟩ := h
    exact read?.eq_6 o path rest hunchecked (fun hpath _ => hdepth hpath)
      (fun _ _ hpath _ => hdepth hpath) hend

/-- A line adds its first part and then the others. -/
lemma addTo_cons (o : Options) {part : Part} (h : part.WellSpelled) (parts : List Part)
    (tail : Option (List String)) :
    Line.addTo o ⟨part :: parts, tail⟩ = Line.addTo (o.add part) ⟨parts, tail⟩ := by
  cases part with
  | unchecked => simp [Line.addTo, Line.files, add, List.filterMap_cons, Part.depth?, Part.path?]
  | maxDepth word =>
    obtain ⟨n, hn⟩ := Option.ne_none_iff_exists'.1 h
    simp [Line.addTo, Line.files, add, List.filterMap_cons, Part.depth?, Part.path?, hn,
      List.getLast?_cons]
  | file path => simp [Line.addTo, Line.files, add, List.filterMap_cons, Part.depth?, Part.path?]

/-- The words of a line are read as what it says. -/
lemma read?_words (o : Options) {line : Line} (h : line.WellSpelled) :
    read? o line.words = some (Line.addTo o line) := by
  obtain ⟨parts, tail⟩ := line
  induction parts generalizing o with
  | nil => cases tail <;> simp [Line.words, read?, Line.addTo, Line.files]
  | cons part parts ih =>
    obtain ⟨hpart, hparts⟩ := List.forall_mem_cons.1 h
    rw [Line.words_cons, read?_append o hpart, ih _ hparts, addTo_cons o hpart]

/-- A line with one more part in front. -/
lemma exists_cons {o o' : Options} {part : Part} (hpart : part.WellSpelled) {rest : List String}
    (h : ∃ line : Line, line.WellSpelled ∧ line.words = rest ∧ Line.addTo (o.add part) line = o') :
    ∃ line : Line, line.WellSpelled ∧ line.words = part.words ++ rest ∧ Line.addTo o line = o' := by
  obtain ⟨⟨parts, tail⟩, hparts, rfl, hadd⟩ := h
  refine ⟨⟨part :: parts, tail⟩, List.forall_mem_cons.2 ⟨hpart, hparts⟩, Line.words_cons _ _ _, ?_⟩
  rw [addTo_cons o hpart, hadd]

/-- Words that can be read are the words of a line. -/
lemma exists_line_of_read? {o o' : Options} {words : List String} (h : read? o words = some o') :
    ∃ line : Line, line.WellSpelled ∧ line.words = words ∧ Line.addTo o line = o' := by
  fun_induction read? o words with
  | case1 o =>
    obtain rfl := Option.some.inj h
    exact ⟨⟨[], none⟩, by simp [Line.WellSpelled], rfl, by simp [Line.addTo, Line.files]⟩
  | case2 o rest ih =>
    have hpart : Part.unchecked.WellSpelled := trivial
    exact exists_cons hpart (ih h)
  | case3 => simp at h
  | case4 o depth rest n hdepth ih =>
    have hpart : (Part.maxDepth depth).WellSpelled := by simp [Part.WellSpelled, hdepth]
    apply exists_cons hpart
    simpa only [add, hdepth, Option.getD_some] using ih h
  | case5 => simp at h
  | case6 o rest =>
    obtain rfl := Option.some.inj h
    exact ⟨⟨[], some rest⟩, by simp [Line.WellSpelled], rfl, by simp [Line.addTo, Line.files]⟩
  | case7 o file rest hunchecked hlast hdepth hend ih =>
    have hpart : (Part.file file).WellSpelled := by
      simp only [Part.WellSpelled, List.mem_cons, List.not_mem_nil, or_false, not_or]
      refine ⟨hunchecked, fun hfile => ?_, hend⟩
      -- a depth without a number is refused, so that a path of that name is never reached
      cases rest with
      | nil => exact hlast hfile rfl
      | cons word others => exact hdepth word others hfile rfl
    exact exists_cons hpart (ih h)

/-- Words can be read exactly if they are the words of a line, and they are read as what the line
says. -/
lemma read?_eq_some_iff {words : List String} {o : Options} :
    read? {} words = some o ↔
      ∃ line : Line, line.WellSpelled ∧ line.words = words ∧ line.options = o := by
  constructor
  · exact exists_line_of_read?
  · rintro ⟨line, hline, rfl, rfl⟩
    exact read?_words {} hline

end Options

namespace Line

variable {line other : Line}

lemma mem_files {path : String} : path ∈ line.files ↔ .file path ∈ line.parts := by
  simp only [files, List.mem_filterMap]
  constructor
  · rintro ⟨part, hpart, hpath⟩
    cases part <;> simp_all [Part.path?]
  · intro hpart
    exact ⟨_, hpart, rfl⟩

/-- The settings of a line are in its choices. -/
lemma settings_options (line : Line) :
    line.options.settings =
      { mode := if .unchecked ∈ line.choices then .unchecked else .checked
        maxDepth := (line.choices.filterMap Part.depth?).getLast?.getD defaultMaxDepth } := by
  have hunchecked : .unchecked ∈ line.choices ↔ .unchecked ∈ line.parts := by
    simp [choices, Part.path?]
  have hdepths : line.choices.filterMap Part.depth? = line.parts.filterMap Part.depth? := by
    rw [choices, List.filterMap_filter]
    apply List.filterMap_congr
    intro part _
    cases part <;> rfl
  simp only [hunchecked, hdepths, options, addTo]

lemma options_eq_mk (line : Line) :
    line.options = ⟨line.options.settings, line.files, line.tail.getD []⟩ := by
  simp [options, addTo]

/-- Moving choices among the files changes nothing in what a line says. -/
lemma Rearranged.options_eq (h : line.Rearranged other) : other.options = line.options := by
  rw [options_eq_mk other, options_eq_mk line, settings_options other, settings_options line,
    h.choices_eq, h.files_eq, h.tail_eq]

/-- Moving choices among the files keeps the parts. -/
lemma Rearranged.wellSpelled (h : line.Rearranged other) (hline : line.WellSpelled) :
    other.WellSpelled := by
  intro part hpart
  apply hline
  cases hpath : part.path? with
  | none =>
    have hchoice : part ∈ other.choices := by simp [choices, hpart, hpath]
    rw [h.choices_eq] at hchoice
    exact List.mem_of_mem_filter hchoice
  | some path =>
    obtain rfl : part = .file path := by cases part <;> simp_all [Part.path?]
    rwa [← mem_files, h.files_eq, mem_files] at hpart

lemma choices_alone (line : Line) (path : String) : (line.alone path).choices = line.choices := by
  simp [alone, choices, List.filter_append, Part.path?]

lemma files_alone (line : Line) (path : String) : (line.alone path).files = [path] := by
  simp [alone, files, choices, List.filterMap_append, Part.path?]

/-- The line of one file differs in the files only. -/
lemma options_alone (line : Line) (path : String) :
    (line.alone path).options = { line.options with files := [path] } := by
  have htail : (line.alone path).tail = line.tail := rfl
  rw [options_eq_mk (line.alone path), options_eq_mk line, settings_options (line.alone path),
    settings_options line, choices_alone, files_alone, htail]

lemma WellSpelled.alone (h : line.WellSpelled) {path : String} (hpath : path ∈ line.files) :
    (line.alone path).WellSpelled := by
  intro part hpart
  apply h
  rcases List.mem_append.1 hpart with hchoice | hfile
  · exact List.mem_of_mem_filter hchoice
  · obtain rfl := List.mem_singleton.1 hfile
    exact mem_files.1 hpath

end Line

/-! ### Reports on several files -/

namespace Report

/-- The line for a file that cannot be read or processed. -/
def complaint? : String × Except String String → Option String
  | (_, .ok _) => none
  | (path, .error message) => some (path ++ ": " ++ message ++ "\n")

/-- The report on some files: what the task gives for those with a result, a line for each of the
others, and an exit code that tells whether there are others. -/
def ofFiles (outcomes : List (String × Except String String)) : Report where
  exit := if outcomes.all (·.2.isOk) then 0 else 1
  stdout := String.join (outcomes.filterMap (·.2.toOption))
  stderr := String.join (outcomes.filterMap complaint?)

/-- A report grows by one more file at its end. -/
lemma ofFiles_concat (outcomes : List (String × Except String String)) (path : String)
    (outcome : Except String String) :
    ofFiles (outcomes ++ [(path, outcome)]) = (ofFiles outcomes).add path outcome := by
  simp only [ofFiles, List.all_append, List.all_cons, List.all_nil, Bool.and_true,
    List.filterMap_append, String.join_append]
  cases outcome with
  | ok text =>
    have hok : (Except.ok text : Except String String).isOk = true := rfl
    simp only [hok, Bool.and_true]
    simp [add, complaint?, Except.toOption, List.filterMap_cons]
  | error message =>
    have herror : (Except.error message : Except String String).isOk = false := rfl
    simp [add, complaint?, Except.toOption, herror, String.append_assoc]

end Report

variable (read : String → Except String String)

/-- Doing a task for each file in turn gives the report on what it gives for each of them. -/
lemma processAll_eq (task : Task) (o : Options) :
    processAll read task o =
      Report.ofFiles (o.files.map fun path => (path, processFile read task o path)) := by
  rw [processAll]
  -- the report grows at its end, so the files are taken from the end as well
  induction o.files using List.reverseRecOn with
  | nil => simp [Report.ofFiles]
  | append_singleton files path ih =>
    rw [List.foldl_concat, ih, List.map_append, List.map_singleton, Report.ofFiles_concat]

/-- What a task gives for a file does not depend on the other files. -/
lemma processFile_congr_files (task : Task) (o : Options) (files : List String) (path : String) :
    processFile read task { o with files := files } path = processFile read task o path :=
  rfl

variable {read}

/-- A known command with some files is done for each of them. -/
lemma run_words {command : String} {task : Task} (hcommand : Task.ofName? command = some task)
    {line : Line} (hline : line.WellSpelled) (hfiles : line.files ≠ []) :
    run read (command :: line.words) =
      Report.ofFiles (line.files.map fun path =>
        (path, processFile read task line.options path)) := by
  have hhelp : ¬ (command = "--help" ∨ command = "-h") := by
    rintro (rfl | rfl) <;> simp [Task.ofName?] at hcommand
  have hoptions : line.options.files = line.files := by simp [Line.options, Line.addTo]
  have hsome : ¬ line.options.files.isEmpty := by simpa [hoptions] using hfiles
  rw [run, if_neg hhelp, Options.read?_words {} hline, hcommand]
  dsimp only
  rw [← Line.options, if_neg hsome, processAll_eq, hoptions]

/-- Files are treated one by one.  If the command is known, the words after it can be read and they
name a file, then the words are those of a line of choices, files and words after a `--`, and

* the report puts together what the task gives for each file: the standard output is what it gives
  for those with a result, the standard error is a line for each of the others, and the exit code is
  1 if there are others and 0 if not;
* each file has the outcome that it has when it is the only one;
* the report depends only on the command and on what the line says, which is whether checks are
  left out, the last depth, the files in order and the words after the `--`;
* so choices can be moved among the files. -/
theorem run_eq_ofFiles (read : String → Except String String) {command : String} {task : Task}
    {words : List String} {o : Options} (hcommand : Task.ofName? command = some task)
    (hwords : Options.read? {} words = some o) (hfiles : o.files ≠ []) :
    ∃ line : Line, line.WellSpelled ∧ line.words = words ∧ line.options = o ∧
      run read (command :: words) =
        Report.ofFiles (line.files.map fun path => (path, processFile read task o path)) ∧
      (∀ path ∈ line.files, run read (command :: (line.alone path).words) =
        Report.ofFiles [(path, processFile read task o path)]) ∧
      (∀ other : Line, other.WellSpelled → other.options = line.options →
        run read (command :: other.words) = run read (command :: words)) ∧
      ∀ other : Line, line.Rearranged other →
        run read (command :: other.words) = run read (command :: words) := by
  obtain ⟨line, hline, rfl, rfl⟩ := Options.read?_eq_some_iff.1 hwords
  have hsome : line.files ≠ [] := by simpa [Line.options, Line.addTo] using hfiles
  have hother : ∀ other : Line, other.WellSpelled → other.options = line.options →
      run read (command :: other.words) = run read (command :: line.words) := by
    intro other hspelled hoptions
    have heq : other.files = line.files := by
      simpa [Line.options, Line.addTo] using congrArg Options.files hoptions
    rw [run_words hcommand hspelled (heq ▸ hsome), run_words hcommand hline hsome, heq, hoptions]
  refine ⟨line, hline, rfl, rfl, run_words hcommand hline hsome, ?_, hother, ?_⟩
  · intro path hpath
    have hone : (line.alone path).files ≠ [] := by simp [Line.files_alone]
    rw [run_words hcommand (hline.alone hpath) hone, Line.files_alone, Line.options_alone,
      List.map_singleton, processFile_congr_files]
  · intro other hmoved
    exact hother other (hmoved.wellSpelled hline) hmoved.options_eq

/-- A program with a missing file after it prints the same when it is run alone, and the missing
file has the same complaint. -/
theorem run_eq_ofFiles_missing :
    ∃ (read : String → Except String String) (line : Line),
      line.words = ["a", "--unchecked", "b", "--max-depth", "3", "--", "--unchecked"] ∧
      line.files = ["a", "b"] ∧
      run read ("run" :: line.words) = ⟨1, "hi", "b: missing\n"⟩ ∧
      run read ("run" :: (line.alone "a").words) = ⟨0, "hi", ""⟩ ∧
      run read ("run" :: (line.alone "b").words) = ⟨1, "", "b: missing\n"⟩ := by
  let read (path : String) : Except String String :=
    if path = "a" then .ok ":echo:text@\"hi\"" else .error "missing"
  let words := ["a", "--unchecked", "b", "--max-depth", "3", "--", "--unchecked"]
  have hwords : Options.read? {} words = some ⟨⟨.unchecked, 3⟩, ["a", "b"], ["--unchecked"]⟩ := by
    decide +kernel
  obtain ⟨line, -, hline, hoptions, hrun, halone, -, -⟩ :=
    run_eq_ofFiles read (show Task.ofName? "run" = some .run from rfl) hwords (by simp)
  have hfiles : line.files = ["a", "b"] := by
    simpa [Line.options, Line.addTo] using congrArg Options.files hoptions
  rw [hfiles] at hrun halone
  refine ⟨read, line, hline, hfiles, ?_, ?_, ?_⟩
  · rw [hline, hrun]
    decide +kernel
  · rw [halone "a" (by simp)]
    decide +kernel
  · rw [halone "b" (by simp)]
    decide +kernel

end ColonScript.CommandLine
