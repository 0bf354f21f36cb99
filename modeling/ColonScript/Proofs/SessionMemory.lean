import Mathlib
import ColonScript.Session

/-!
# What a session remembers cannot be seen

A session gives an output again if it has given it before.  `Backend.anew` is what a backend gives
for a source when everything is done from the start, without a session.  This file shows that,
after any calls, a session answers as if it did that (`Session.answers_anew`): what is remembered
is never out of date, although outputs depend on the depth limit and the limit can be changed at
any time.

A history of calls determines which limit is in force (`Session.depthAfter`) and which outputs are
remembered (`Session.compiledSince`).  `Session.UpToDate` says that a session is in line with its
history, and each call keeps it so (`UpToDate.after`).
-/

namespace ColonScript

namespace Backend

lemma mem_all (b : Backend) : b ∈ all := by
  cases b <;> decide

lemma name_injective : Function.Injective name := by
  intro b c h
  cases b <;> cases c <;> simp_all [name]

/-- A name stands for the backend whose name it is up to case. -/
lemma ofName?_eq_some_iff {s : String} {b : Backend} : ofName? s = some b ↔ b.name = s.toLower := by
  constructor
  · intro h
    simpa using List.find?_some h
  · intro h
    have hfound : (ofName? s).isSome = true :=
      List.find?_isSome.2 ⟨b, mem_all b, by simpa using h⟩
    obtain ⟨c, hc⟩ := Option.isSome_iff_exists.1 hfound
    have hsame : c.name = s.toLower := by simpa using List.find?_some hc
    rw [hc, name_injective (hsame.trans h.symm)]

/-- A name stands for no backend if it is the name of none. -/
lemma ofName?_eq_none_iff {s : String} : ofName? s = none ↔ ∀ b : Backend, b.name ≠ s.toLower := by
  rw [Option.eq_none_iff_forall_ne_some]
  exact forall_congr' fun b => not_congr ofName?_eq_some_iff

/-- What a backend gives for a source when everything is done from the start. -/
def anew (source : String) (maxDepth : ℕ) : Backend → Except Error Output
  | .checked => (Program.ofSource source ⟨.checked, maxDepth⟩).map .program
  | .unchecked => (Program.ofSource source ⟨.unchecked, maxDepth⟩).map .program
  | .source =>
    match Token.tokenize source with
    | .ok tokens => .ok (.source (Source.ofTokens tokens))
    | .error e => .error (.source e)

end Backend

namespace Session

/-! ### Calls and histories -/

/-- A call on a session. -/
inductive Call where
  /-- Compile for the backend with a name. -/
  | named (name : String)
  /-- Compile for a backend. -/
  | backend (b : Backend)
  /-- Set the depth limit. -/
  | depth (maxDepth : ℕ)
deriving DecidableEq, Repr

namespace Call

/-- The backend for which a call compiles; a call with an unknown name compiles for none. -/
def backend? : Call → Option Backend
  | named name => Backend.ofName? name
  | backend b => some b
  | depth _ => none

/-- The depth limit that a call sets. -/
def depth? : Call → Option ℕ
  | depth maxDepth => some maxDepth
  | named _ | backend _ => none

end Call

/-- The session that a call leaves behind, whether it succeeds or fails. -/
def after (s : Session) : Call → Session
  | .named name => (s.compileNamed name).2
  | .backend b => (s.compile b).2
  | .depth maxDepth => s.withMaxDepth maxDepth

/-- The session after some calls. -/
def run (s : Session) (calls : List Call) : Session :=
  calls.foldl after s

/-- The depth limit in force after some calls: the one that was set last. -/
def depthAfter (calls : List Call) : ℕ :=
  (calls.filterMap Call.depth?).getLastD defaultMaxDepth

/-- The backends for which some calls have compiled since the depth limit was last set. -/
def compiledSince (calls : List Call) : Finset Backend :=
  ((calls.rtakeWhile fun c => c.depth?.isNone).filterMap Call.backend?).toFinset

section History

variable {calls : List Call} {c : Call}

/-- One more call changes the limit if it sets one. -/
lemma depthAfter_concat : depthAfter (calls ++ [c]) = c.depth?.getD (depthAfter calls) := by
  cases hc : c.depth? with
  | none => simp [depthAfter, hc]
  | some maxDepth => simp [depthAfter, hc]

/-- One more call adds the backend for which it compiles, and forgets all if it sets the limit. -/
lemma mem_compiledSince_concat {b : Backend} :
    b ∈ compiledSince (calls ++ [c]) ↔
      c.depth? = none ∧ (b ∈ compiledSince calls ∨ c.backend? = some b) := by
  unfold compiledSince
  by_cases hc : c.depth? = none
  · rw [List.rtakeWhile_concat_pos _ _ _ (by simp [hc])]
    simp [hc]
  · rw [List.rtakeWhile_concat_neg _ _ _ (by simpa [Option.isNone_iff_eq_none] using hc)]
    simp [hc]

end History

/-! ### Sessions in line with their history -/

/-- A session on a source that is in line with the calls made on it. -/
structure UpToDate (source : String) (calls : List Call) (s : Session) : Prop where
  /-- The tokens and the tree are those of the source. -/
  parsed : Tree.parse source = .ok (s.tokens, s.tree)
  maxDepth_eq : s.maxDepth = depthAfter calls
  /-- What is remembered for a backend is what it would give now. -/
  output_eq : ∀ entry ∈ s.outputs, entry.2 = s.output entry.1
  /-- No backend is remembered twice. -/
  nodup : (s.outputs.map Prod.fst).Nodup
  mem_iff : ∀ b, b ∈ s.outputs.map Prod.fst ↔ b ∈ compiledSince calls

/-- Compiling gives what is remembered, or else remembers what the backend gives now. -/
lemma compile_cases (s : Session) (b : Backend) :
    (∃ output, (b, output) ∈ s.outputs ∧ s.compile b = (output, s)) ∨
      b ∉ s.outputs.map Prod.fst ∧
        s.compile b = (s.output b, { s with outputs := (b, s.output b) :: s.outputs }) := by
  unfold compile
  split
  · next output hfound =>
    obtain ⟨front, back, hsplit, -⟩ := List.lookup_eq_some_iff.1 hfound
    exact .inl ⟨output, by simp [hsplit], rfl⟩
  · next hnone =>
    refine .inr ⟨fun hmem => ?_, rfl⟩
    obtain ⟨entry, hentry, rfl⟩ := List.mem_map.1 hmem
    have hne := List.lookup_eq_none_iff.1 hnone entry hentry
    simp at hne

/-- What a backend gives does not depend on what is remembered. -/
lemma output_remembering (s : Session) (outputs : List (Backend × Output)) (b : Backend) :
    { s with outputs := outputs }.output b = s.output b := by
  cases b <;> rfl

/-- A name that stands for a backend compiles for it. -/
lemma compileNamed_of_some {s : Session} {name : String} {b : Backend}
    (h : Backend.ofName? name = some b) :
    s.compileNamed name = (.ok (s.compile b).1, (s.compile b).2) := by
  rw [compileNamed, Backend.ofName, h]

/-- A name that stands for no backend is refused and changes nothing. -/
lemma compileNamed_of_none {s : Session} {name : String} (h : Backend.ofName? name = none) :
    s.compileNamed name = (.error (.unknownBackend name), s) := by
  rw [compileNamed, Backend.ofName, h]

/-- A call with the name of a backend leads to the session that remembers its output. -/
lemma after_named_of_some {s : Session} {name : String} {b : Backend}
    (h : Backend.ofName? name = some b) : s.after (.named name) = (s.compile b).2 := by
  rw [after, compileNamed_of_some h]

/-- A call with an unknown name changes nothing. -/
lemma after_named_of_none {s : Session} {name : String} (h : Backend.ofName? name = none) :
    s.after (.named name) = s := by
  rw [after, compileNamed_of_none h]

namespace UpToDate

variable {source : String} {calls : List Call} {s : Session}

/-- A new session has no history. -/
lemma of_start (h : start source = .ok s) : UpToDate source [] s := by
  rw [start] at h
  cases hparse : Tree.parse source with
  | error e => simp [hparse, Except.map] at h
  | ok parsed =>
    rw [hparse] at h
    obtain rfl := Except.ok.inj h
    exact ⟨hparse, rfl, by simp, by simp, by simp [compiledSince]⟩

/-- A session in line with its history gives what the backend gives now. -/
lemma compile_fst (h : UpToDate source calls s) (b : Backend) : (s.compile b).1 = s.output b := by
  rcases s.compile_cases b with ⟨output, hmem, hcompile⟩ | ⟨-, hcompile⟩
  · rw [hcompile]
    exact h.output_eq _ hmem
  · rw [hcompile]

/-- A call that compiles keeps a session in line with its history. -/
lemma after_compile (h : UpToDate source calls s) {c : Call} {b : Backend}
    (hdepth : c.depth? = none) (hc : c.backend? = some b) :
    UpToDate source (calls ++ [c]) (s.compile b).2 := by
  have hlimit : depthAfter (calls ++ [c]) = depthAfter calls := by
    rw [depthAfter_concat, hdepth]
    rfl
  have hsince (b' : Backend) :
      b' ∈ compiledSince (calls ++ [c]) ↔ b' ∈ s.outputs.map Prod.fst ∨ b' = b := by
    rw [mem_compiledSince_concat, hc, h.mem_iff, Option.some.injEq, @eq_comm _ b b']
    simp [hdepth]
  -- either nothing is new, or the output of the backend is added in front
  rcases s.compile_cases b with ⟨output, hmem, hcompile⟩ | ⟨hnew, hcompile⟩
  · have hthere : b ∈ s.outputs.map Prod.fst := List.mem_map.2 ⟨_, hmem, rfl⟩
    rw [hcompile]
    refine ⟨h.parsed, h.maxDepth_eq.trans hlimit.symm, h.output_eq, h.nodup, fun b' => ?_⟩
    rw [hsince]
    exact ⟨.inl, fun hb' => hb'.elim id fun heq => heq ▸ hthere⟩
  · rw [hcompile]
    refine ⟨h.parsed, h.maxDepth_eq.trans hlimit.symm, ?_, List.nodup_cons.2 ⟨hnew, h.nodup⟩,
      fun b' => ?_⟩
    · intro entry hentry
      rw [output_remembering]
      rcases List.mem_cons.1 hentry with rfl | hold
      · rfl
      · exact h.output_eq entry hold
    · rw [hsince, List.map_cons, List.mem_cons, or_comm]

/-- Every call keeps a session in line with its history. -/
lemma after (h : UpToDate source calls s) (c : Call) :
    UpToDate source (calls ++ [c]) (s.after c) := by
  cases c with
  | named name =>
    cases hname : Backend.ofName? name with
    | none =>
      rw [after_named_of_none hname]
      refine ⟨h.parsed, ?_, h.output_eq, h.nodup, fun b => ?_⟩
      · rw [depthAfter_concat]
        exact h.maxDepth_eq
      · rw [mem_compiledSince_concat, h.mem_iff]
        simp [Call.depth?, Call.backend?, hname]
    | some b =>
      rw [after_named_of_some hname]
      exact h.after_compile rfl hname
  | backend b => exact h.after_compile rfl rfl
  | depth maxDepth =>
    refine ⟨h.parsed, ?_, by simp [Session.after, withMaxDepth], ?_, fun b => ?_⟩
    · rw [depthAfter_concat]
      rfl
    · exact List.nodup_nil
    · rw [mem_compiledSince_concat]
      simp [Session.after, withMaxDepth, Call.depth?]

/-- Every sequence of calls leads to a session in line with it. -/
lemma run (h : start source = .ok s) (calls : List Call) :
    UpToDate source calls (s.run calls) := by
  induction calls using List.reverseRecOn with
  | nil => exact of_start h
  | append_singleton calls c ih =>
    rw [Session.run, List.foldl_concat]
    exact ih.after c

/-- As many outputs are remembered as backends were compiled for since the limit was set. -/
lemma compiled_eq (h : UpToDate source calls s) : s.compiled = (compiledSince calls).card := by
  have hkeys : (s.outputs.map Prod.fst).toFinset = compiledSince calls := by
    ext b
    rw [List.mem_toFinset, h.mem_iff]
  rw [← hkeys, List.toFinset_card_of_nodup h.nodup, List.length_map, compiled]

end UpToDate

/-! ### Answers of a session -/

/-- What a backend gives for the tree of a session is what it gives for the source. -/
lemma UpToDate.anew_eq {source : String} {calls : List Call} {s : Session}
    (h : UpToDate source calls s) (b : Backend) :
    b.anew source (depthAfter calls) = .ok (s.output b) := by
  rw [← h.maxDepth_eq]
  cases b with
  | checked => simp [Backend.anew, Program.ofSource, Tree.ofSource, h.parsed, Except.map, output]
  | unchecked => simp [Backend.anew, Program.ofSource, Tree.ofSource, h.parsed, Except.map, output]
  | source => simp [Backend.anew, (Tree.parse_eq_ok_iff.1 h.parsed).1, output]

/-- A session can be opened exactly on the sources that can be compiled; the error is the same. -/
lemma start_eq_error_iff {source : String} {settings : Settings} {e : Error} :
    start source = .error e ↔ Program.ofSource source settings = .error e := by
  rw [start, Program.ofSource, Tree.ofSource]
  cases Tree.parse source with
  | error e' => simp [Except.map]
  | ok parsed => simp [Except.map]

/-- What a session remembers cannot be seen.  A source on which no session can be opened is one that
cannot be compiled, with the same error.  After any calls on a session, each backend gives what it
gives for the source from the start, under the limit that was set last; a name counts in any case,
and an unknown one is refused and changes nothing; and as many outputs are remembered as there are
backends that were compiled for since the limit was set. -/
theorem answers_anew (source : String) :
    (∀ settings e, start source = .error e ↔ Program.ofSource source settings = .error e) ∧
    ∀ s, start source = .ok s → ∀ calls,
      (∀ b : Backend, b.anew source (depthAfter calls) = .ok ((s.run calls).compile b).1) ∧
      (∀ (name : String) (b : Backend), b.name = name.toLower →
        (s.run calls).compileNamed name =
          (.ok ((s.run calls).compile b).1, ((s.run calls).compile b).2)) ∧
      (∀ name : String, (∀ b : Backend, b.name ≠ name.toLower) →
        (s.run calls).compileNamed name = (.error (.unknownBackend name), s.run calls) ∧
          s.run (calls ++ [.named name]) = s.run calls) ∧
      (s.run calls).compiled = (compiledSince calls).card := by
  refine ⟨fun settings e => start_eq_error_iff, fun s hstart calls => ?_⟩
  have hdate := UpToDate.run hstart calls
  refine ⟨fun b => ?_, fun name b hname => ?_, fun name hname => ?_, hdate.compiled_eq⟩
  · rw [hdate.compile_fst]
    exact hdate.anew_eq b
  · exact compileNamed_of_some (Backend.ofName?_eq_some_iff.2 hname)
  · have hnone := Backend.ofName?_eq_none_iff.2 hname
    refine ⟨compileNamed_of_none hnone, ?_⟩
    rw [run, List.foldl_concat]
    exact after_named_of_none hnone

/-- The output for the old limit is forgotten, and neither the unknown name nor the case of a name
matters. -/
theorem answers_anew_changed_limit :
    ∃ s, start ":echo:const@1" = .ok s ∧
      (s.run [.named "Checked", .depth 4, .named "php"]).compiled = 0 ∧
      (s.run [.named "Checked", .depth 4, .named "php"]).compileNamed "CHECKED" =
        (.ok ((s.run [.named "Checked", .depth 4, .named "php"]).compile .checked).1,
          ((s.run [.named "Checked", .depth 4, .named "php"]).compile .checked).2) ∧
      Backend.anew ":echo:const@1" 4 .checked =
        .ok ((s.run [.named "Checked", .depth 4, .named "php"]).compile .checked).1 := by
  obtain ⟨hfails, hcalls⟩ := answers_anew ":echo:const@1"
  cases hstart : start ":echo:const@1" with
  | error e =>
    have hok : (Program.ofSource ":echo:const@1" {}).isOk = true := by decide +kernel
    rw [(hfails {} e).1 hstart] at hok
    simp [Except.isOk, Except.toBool] at hok
  | ok s =>
    obtain ⟨hanew, hnamed, -, hcount⟩ := hcalls s hstart [.named "Checked", .depth 4, .named "php"]
    refine ⟨s, rfl, ?_, hnamed "CHECKED" .checked (by decide +kernel), hanew .checked⟩
    rw [hcount]
    decide +kernel

end Session

end ColonScript
