import Curried.CommandLine
import Curried.Proofs.Faults
import Curried.Proofs.History

/-!
# Proofs — what the shell survives

A line of the shell does one of three things: it ends the loop, it prints something and the loop
goes on, or a fault that the shell does not handle ends the program.  The last happens in exactly
two situations (`Shell.Escapes`).  The line loads a file, and either the contents are not UTF-8 or
the path starts in a home directory that cannot be found; or the line comes to a value that is
nested deeper than there is room for when it is written.

* `Tree.written_eq`: a tree is written exactly if there is room for the calls that it takes.
* `Files.fault_read`: what reading a file can end in.
* `Shell.eval_cases`: evaluating a text escapes only with a value that is nested too deep.
* `Shell.step_cases`, `Shell.Escapes.ending`: one line.
* `CommandLine.runShell_ending`: the loop ends in a fault exactly if a line that escapes is reached.
-/

namespace Curried

/-! ### Writing values -/

namespace Tree

theorem calls_pos (t : Tree) : 0 < t.calls := by
  cases t <;> simp [calls]

theorem written_zero (t : Tree) : t.written 0 = .error .tooNested := by
  cases t <;> rfl

theorem written_leaf {t : Tree} (h : ∀ f as, t ≠ .app f as) (hshown : t.sourceless? = none)
    (room : Nat) :
    t.written room = if t.calls ≤ room then .ok t.source else .error .tooNested := by
  cases t with
  | app f as => exact absurd rfl (h f as)
  | num n => rcases room with _ | _ | room <;> simp [written, numeral, calls, source]
  | host g =>
      have hg : g.hasSource := by simpa [sourceless?] using hshown
      rcases room with _ | _ | room <;> simp [written, numeral, calls, hg]
  | text | nil | sym | form => rcases room with _ | room <;> simp [written, calls]

/-- Several trees are written if each of them is. -/
theorem writtenAll_eq {ts : List Tree} {room : Nat}
    (h : ∀ t ∈ ts, t.written room = if t.calls ≤ room then .ok t.source else .error .tooNested) :
    writtenAll ts room = if callsIn ts ≤ room then .ok (sources ts) else .error .tooNested := by
  induction ts with
  | nil => simp [writtenAll, callsIn, sources]
  | cons t ts ih =>
      rw [List.forall_mem_cons] at h
      rw [writtenAll, h.1, ih h.2, callsIn, sources]
      by_cases ht : t.calls ≤ room
      · by_cases hts : callsIn ts ≤ room <;> simp [ht, hts, Except.bind, Except.map]
      · simp [ht, Except.bind]

/-- **A tree is written exactly if there is room** for the calls that it takes, if every leaf has
source text. -/
theorem written_eq {t : Tree} (hshown : t.sourceless? = none) (room : Nat) :
    t.written room = if t.calls ≤ room then .ok t.source else .error .tooNested := by
  induction t using byApp generalizing room with
  | leaf t h => exact written_leaf h hshown room
  | app f as ihf ihas =>
      rw [sourceless?, Option.or_eq_none_iff, sourcelessIn?_eq_findSome?,
        List.findSome?_eq_none_iff] at hshown
      cases room with
      | zero => rw [written_zero, if_neg (Nat.not_le.mpr (calls_pos _))]
      | succ room =>
          -- With room for the operator there is room for the call that goes through the operands.
          have hroom : (app f as).calls ≤ room + 1 ↔ f.calls ≤ room ∧ callsIn as ≤ room - 1 := by
            have := f.calls_pos
            rw [calls]
            omega
          rw [written, ihf hshown.1, writtenAll_eq fun a ha => ihas a ha (hshown.2 a ha) (room - 1)]
          simp only [hroom]
          by_cases hf : f.calls ≤ room
          · by_cases has : callsIn as ≤ room - 1 <;> simp [hf, has, Except.bind, Except.map, source]
          · simp [hf, Except.bind]

end Tree

/-! ### Reading files -/

/-- The faults of reading a file that the shell does not handle: contents that are not UTF-8, and a
home directory that cannot be found. -/
inductive Fault.Unhandled : Fault → Prop where
  | notUtf8 : Unhandled .notUtf8
  | noHome : Unhandled .noHome
  | nullInName : Unhandled .nullInName

namespace Files

variable {files : Files} {f : Fault}

theorem fault_expand {p : Path} (h : files.expand p = .error f) : f.Unhandled := by
  rw [expand] at h
  split at h
  · cases h
  · split at h
    · cases h
      exact .nullInName
    · split at h
      · cases h
      · cases h
        exact .noHome

theorem fault_first? {ps : List Path} (h : files.first? ps = .error f) :
    ∃ reason, f = .refused reason := by
  induction ps with
  | nil => cases h
  | cons p ps ih =>
      rw [first?] at h
      split at h
      · cases h
      · cases h
      · cases h
        exact ⟨_, rfl⟩
      · exact ih h

theorem fault_find {text : String} (h : files.find text = .error f) :
    f.Unhandled ∨ (∃ reason, f = .refused reason) ∨ ∃ p, f = .noFile p := by
  rw [find] at h
  split at h
  · rename_i hexpand
    cases h
    exact .inl (fault_expand hexpand)
  · split at h
    · rename_i hfirst
      cases h
      exact .inr (.inl (fault_first? hfirst))
    · cases h
      exact .inr (.inr ⟨_, rfl⟩)
    · cases h

theorem fault_text {found : Found} (h : found.text = .error f) :
    f.Unhandled ∨ ∃ reason, f = .refused reason := by
  rw [Found.text] at h
  split at h
  · cases h
    exact .inr ⟨_, rfl⟩
  · rw [Text.decode] at h
    split at h
    · cases h
      exact .inl .notUtf8
    · cases h

/-- **What reading a file can end in.** -/
theorem fault_read {text : String} (h : files.read text = .error f) :
    f.Unhandled ∨ (∃ reason, f = .refused reason) ∨ ∃ p, f = .noFile p := by
  rw [read] at h
  cases hfind : files.find text with
  | error g =>
      rw [hfind] at h
      cases h
      exact fault_find hfind
  | ok found =>
      rw [hfind] at h
      exact (fault_text h).imp_right .inl

end Files

/-! ### Lines -/

/-- **A text ends in the language**, also where the host runs out of room on it. -/
theorem Console.inLanguage_eval (console : Console) (source : String) :
    (console.eval [] source).outcome.InLanguage := by
  rw [eval]
  split
  · trivial
  · exact Session.inLanguage_eval console.limit .empty source

namespace Shell

/-- A line that ends the loop. -/
def Ends (line : String) : Prop := Command.ofLine line = .exit ∨ Command.ofLine line = .endOfFile

/-- The line asks for a text to be evaluated: it is that text, or loads the file that holds it. -/
def Evaluates (files : Files) (line source : String) : Prop :=
  Command.ofLine line = .eval source ∨
    ∃ path, Command.ofLine line = .load path ∧ path ≠ "" ∧ files.read path = .ok source

/-- A line with a fault that the shell does not handle. -/
inductive Escapes (console : Console) (files : Files) (line : String) : Fault → Prop where
  /-- It loads a file whose contents are not UTF-8, or one in a home directory that cannot be
  found. -/
  | unread {path : String} {f : Fault} (hline : Command.ofLine line = .load path)
      (hpath : path ≠ "") (hread : files.read path = .error f) (hf : f.Unhandled) :
      Escapes console files line f
  /-- It comes to a value that takes more calls to write than there is room for. -/
  | unwritten {source : String} {v : Tree} (hsource : Evaluates files line source)
      (hvalue : (console.eval [] source).outcome = .value v) (hroom : console.room < v.calls) :
      Escapes console files line .tooNested

/-- What is printed of a text: its value, for which there is room, or a line about its error. -/
def Answers (console : Console) (source out : String) : Prop :=
  match (console.eval [] source).outcome with
  | .value v => v.calls ≤ console.room ∧ out = v.source ++ "\n"
  | .fault f => out = console.errorLine f.message
  | .tooDeep => out = console.errorLine Console.tooDeepMessage

/-- What is printed of a file that is loaded: what its text comes to, or a line about the path. -/
inductive Loads (console : Console) (files : Files) : String → String → Prop where
  | unnamed : Loads console files "" (console.errorLine "load expects a path")
  | missing {path p : String} (hpath : path ≠ "") (h : files.read path = .error (.noFile p)) :
      Loads console files path (console.errorLine (Fault.noFile p).message)
  | refused {path reason : String} (hpath : path ≠ "")
      (h : files.read path = .error (.refused reason)) :
      Loads console files path (console.errorLine (reason ++ " (" ++ path ++ ")"))
  | evaluated {path source out : String} (hpath : path ≠ "") (h : files.read path = .ok source)
      (hout : Answers console source out) : Loads console files path out

/-- What is printed of a line after which the loop goes on. -/
def Prints (console : Console) (files : Files) (line out : String) : Prop :=
  match Command.ofLine line with
  | .nothing => out = ""
  | .help topic => out = helpText topic
  | .eval source => Answers console source out
  | .load path => Loads console files path out
  | .exit | .endOfFile => False

variable {console : Console} {files : Files} {line source : String}

/-- A value is printed if there is room for it, and escapes otherwise. -/
theorem ending_eval_of_value {v : Tree} (h : (console.eval [] source).outcome = .value v) :
    (v.calls ≤ console.room → (eval console [] source).ending = .goOn ∧
        (eval console [] source).out = v.source ++ "\n") ∧
      (console.room < v.calls → (eval console [] source).ending = .escape .tooNested) := by
  have hshown : v.sourceless? = none := by
    have hends := console.inLanguage_eval source
    rw [h] at hends
    exact hends.2
  refine ⟨fun hroom => ?_, fun hroom => ?_⟩
  · constructor <;> simp only [eval, h, Tree.written_eq hshown, if_pos hroom]
  · simp only [eval, h, Tree.written_eq hshown, if_neg (Nat.not_le.mpr hroom)]

/-- **A text escapes only with a value** that is nested too deep to be written. -/
theorem eval_cases (console : Console) (source : String) :
    (∃ v, (console.eval [] source).outcome = .value v ∧ console.room < v.calls) ∨
      ((eval console [] source).ending = .goOn ∧
        Answers console source (eval console [] source).out) := by
  have hends := console.inLanguage_eval source
  rw [Answers]
  cases h : (console.eval [] source).outcome with
  | value v =>
      refine (Nat.lt_or_ge console.room v.calls).imp (fun hroom => ⟨v, rfl, hroom⟩) fun hroom => ?_
      obtain ⟨hending, hout⟩ := (ending_eval_of_value h).1 hroom
      exact ⟨hending, hroom, hout⟩
  | fault f =>
      rw [h] at hends
      obtain ⟨family, hfamily, -⟩ := hends
      have hlanguage : f.ofLanguage := by rw [Fault.ofLanguage_eq, hfamily]; rfl
      refine .inr ?_
      constructor <;> simp only [eval, h, printFault, if_pos hlanguage]
  | tooDeep =>
      refine .inr ?_
      constructor <;> simp only [eval, h]

theorem Ends.ending (h : Ends line) (console : Console) (files : Files) :
    (step console files [] line).ending = .stop := by
  rcases h with h | h <;> simp only [step, h]

/-- A line ends as the text that it asks for. -/
theorem Evaluates.ending (h : Evaluates files line source) (console : Console) :
    (step console files [] line).ending = (eval console [] source).ending := by
  rcases h with h | ⟨path, h, hpath, hread⟩
  · simp only [step, h]
  · simp only [step, h, load, if_neg hpath, hread]

/-- **A line that escapes** ends the program with its fault. -/
theorem Escapes.ending {f : Fault} (h : Escapes console files line f) :
    (step console files [] line).ending = .escape f := by
  cases h with
  | unread hline hpath hread hf => cases hf <;> simp [step, hline, load, hpath, hread, printFault,
      Fault.ofLanguage]
  | unwritten hsource hvalue hroom =>
      rw [hsource.ending, (ending_eval_of_value hvalue).2 hroom]

/-- **One line** ends the loop, or escapes, or prints something and the loop goes on. -/
theorem step_cases (console : Console) (files : Files) (line : String) :
    Ends line ∨ (∃ f, Escapes console files line f) ∨
      ((step console files [] line).ending = .goOn ∧
        Prints console files line (step console files [] line).out) := by
  rw [Prints, step]
  cases hline : Command.ofLine line with
  | nothing => exact .inr (.inr ⟨rfl, rfl⟩)
  | help topic => exact .inr (.inr ⟨rfl, rfl⟩)
  | exit => exact .inl (.inl hline)
  | endOfFile => exact .inl (.inr hline)
  | eval source =>
      refine .inr ((eval_cases console source).imp_left ?_)
      rintro ⟨v, hvalue, hroom⟩
      exact ⟨_, .unwritten (.inl hline) hvalue hroom⟩
  | load path =>
      refine .inr ?_
      by_cases hpath : path = ""
      · subst hpath
        exact .inr ⟨rfl, .unnamed⟩
      · dsimp only
        rw [load, if_neg hpath]
        cases hread : files.read path with
        | ok source =>
            refine (eval_cases console source).imp ?_ (And.imp_right (.evaluated hpath hread))
            rintro ⟨v, hvalue, hroom⟩
            exact ⟨_, .unwritten (.inr ⟨path, hline, hpath, hread⟩) hvalue hroom⟩
        | error f =>
            rcases Files.fault_read hread with hf | ⟨reason, rfl⟩ | ⟨p, rfl⟩
            · exact .inl ⟨f, .unread hline hpath hread hf⟩
            · exact .inr ⟨rfl, .refused hpath hread⟩
            · exact .inr ⟨rfl, .missing hpath hread⟩

theorem ending_eq_stop_iff (console : Console) (files : Files) (line : String) :
    (step console files [] line).ending = .stop ↔ Ends line := by
  refine ⟨fun h => ?_, fun h => h.ending console files⟩
  rcases step_cases console files line with hends | ⟨f, hf⟩ | ⟨e, -⟩
  · exact hends
  · cases h.symm.trans hf.ending
  · cases h.symm.trans e

theorem ending_eq_escape_iff (console : Console) (files : Files) (line : String) (f : Fault) :
    (step console files [] line).ending = .escape f ↔ Escapes console files line f := by
  refine ⟨fun h => ?_, Escapes.ending⟩
  rcases step_cases console files line with hends | ⟨g, hg⟩ | ⟨e, -⟩
  · cases h.symm.trans (hends.ending console files)
  · cases h.symm.trans hg.ending
    exact hg
  · cases h.symm.trans e

/-- Lines that lead to a fault: one of them escapes with it, and those before it go on. -/
inductive Fails (console : Console) (files : Files) (f : Fault) : List String → Prop where
  | here {line : String} {lines : List String} (h : Escapes console files line f) :
      Fails console files f (line :: lines)
  | later {line : String} {lines : List String} (hends : ¬ Ends line)
      (hescapes : ∀ g, ¬ Escapes console files line g) (h : Fails console files f lines) :
      Fails console files f (line :: lines)

end Shell

/-! ### The loop -/

/-- **The loop ends in a fault exactly if a line that escapes is reached**, and otherwise ends
well. -/
theorem CommandLine.runShell_ending (console : Console) (files : Files) (settings : Settings)
    (lines : List String) :
    ((runShell console files settings [] lines).ending = .ok 0 ∧
        ∀ f, ¬ Shell.Fails console files f lines) ∨
      ∃ f, (runShell console files settings [] lines).ending = .error f ∧
        ∀ g, Shell.Fails console files g lines ↔ g = f := by
  induction lines with
  | nil => exact .inl ⟨rfl, fun f h => nomatch h⟩
  | cons line lines ih =>
      have hstop := Shell.ending_eq_stop_iff console files line
      have hescape := Shell.ending_eq_escape_iff console files line
      cases e : (Shell.step console files [] line).ending with
      | stop =>
          refine .inl ⟨by simp only [runShell, e], fun f h => ?_⟩
          cases h with
          | here h => cases e.symm.trans h.ending
          | later h => exact h (hstop.mp e)
      | escape f =>
          refine .inr ⟨f, by simp only [runShell, e], fun g => ⟨fun h => ?_, ?_⟩⟩
          · cases h with
            | here h => cases e.symm.trans h.ending; rfl
            | later _ h => exact absurd ((hescape f).mp e) (h f)
          · rintro rfl
            exact .here ((hescape _).mp e)
      | goOn =>
          -- The line leaves no frames, so the rest of the loop starts as the loop did.
          have hends : ¬ Shell.Ends line := fun h => by cases e.symm.trans (hstop.mpr h)
          have hescapes : ∀ g, ¬ Shell.Escapes console files line g := fun g h => by
            cases e.symm.trans h.ending
          have hrest : (runShell console files settings [] (line :: lines)).ending =
              (runShell console files settings [] lines).ending := by
            simp only [runShell, e, Shell.stack_step]
          have hfails : ∀ g, Shell.Fails console files g (line :: lines) ↔
              Shell.Fails console files g lines := by
            refine fun g => ⟨fun h => ?_, .later hends hescapes⟩
            cases h with
            | here h => exact absurd h (hescapes g)
            | later _ _ h => exact h
          simpa only [hrest, hfails] using ih

/-- **What the shell survives.**  A line ends the loop exactly if it is `exit` or the end of the
input.  It escapes exactly if it loads a file whose contents are not UTF-8, or one in a home
directory that cannot be found, or if the text that it asks for comes to a value that is nested
deeper than there is room for.  After any other line the loop goes on, and the line has printed what
it comes to: also if its evaluation goes too deep, or if the file system refuses the file.  So,
whatever the host has room for, whatever the files hold and whatever lines there are, the loop ends
in a fault exactly if it reaches a line that escapes. -/
theorem shell_survival (console : Console) (files : Files) :
    (∀ line, ((Shell.step console files [] line).ending = .stop ↔ Shell.Ends line) ∧
      (∀ f, (Shell.step console files [] line).ending = .escape f ↔
        Shell.Escapes console files line f) ∧
      (Shell.Ends line ∨ (∃ f, Shell.Escapes console files line f) ∨
        ((Shell.step console files [] line).ending = .goOn ∧
          Shell.Prints console files line (Shell.step console files [] line).out))) ∧
    ∀ settings lines,
      ((CommandLine.runShell console files settings [] lines).ending = .ok 0 ∧
          ∀ f, ¬ Shell.Fails console files f lines) ∨
        ∃ f, (CommandLine.runShell console files settings [] lines).ending = .error f ∧
          ∀ g, Shell.Fails console files g lines ↔ g = f :=
  ⟨fun line => ⟨Shell.ending_eq_stop_iff console files line,
    Shell.ending_eq_escape_iff console files line, Shell.step_cases console files line⟩,
    CommandLine.runShell_ending console files⟩

/-- Every path leads to a file with the one byte `0xff`. -/
def Files.garbled : Files := ⟨fun _ => none, [⟨"/", []⟩], fun _ => .file ⟨#[0xff]⟩⟩

/-- `(λ a (f (f t)))` -/
def Tree.storey (t : Tree) : Tree :=
  .app (.form .lambda) [.sym "a", .app (.sym "f") [.app (.sym "f") [t]]]

/-- A function that comes to lie inside another one. -/
def Shell.tower : String := "(δ x (λ a (f (f a))) (λ a (f (f x))))"

/-- Loading a garbled file is neither `exit` nor the end of the input, and yet the loop does not go
on; so what is typed after it is never seen.  The same holds of a text that could be written in the
room that there is, while its value cannot. -/
theorem shell_overcome :
    let console : Console := ⟨9, 9, "error: ", fun _ _ => none⟩
    (¬ Shell.Ends "load /a.sl" ∧
      (Shell.step console .garbled [] "load /a.sl").ending = .escape .notUtf8 ∧
      ∀ settings, (CommandLine.runShell console .garbled settings [] ["load /a.sl", "1"]).ending =
        .error .notUtf8) ∧
    ¬ Shell.Ends Shell.tower ∧
      (∃ t, Tree.parse Shell.tower = .ok t ∧ t.calls = 9) ∧
      (Shell.step console .garbled [] Shell.tower).ending = .escape .tooNested ∧
      ∀ settings, (CommandLine.runShell console .garbled settings [] [Shell.tower, "1"]).ending =
        .error .tooNested := by
  intro console
  have hload : Command.ofLine "load /a.sl" = .load "/a.sl" := rfl
  have heval : Command.ofLine Shell.tower = .eval Shell.tower := rfl
  have hparse : Tree.parse Shell.tower =
      .ok (.app (.form .delta) [.sym "x", .storey (.sym "a"), .storey (.sym "x")]) := rfl
  have hvalue : (console.eval [] Shell.tower).outcome = .value (.storey (.storey (.sym "a"))) :=
    (Session.eval_of_parse hparse).trans rfl
  have hescape : (Shell.step console .garbled [] Shell.tower).ending = .escape .tooNested :=
    (Shell.Escapes.unwritten (.inl heval) hvalue (by decide)).ending
  refine ⟨⟨?_, rfl, fun settings => rfl⟩, ?_, ⟨_, hparse, rfl⟩, hescape, fun settings => ?_⟩
  · rintro (h | h) <;> cases hload.symm.trans h
  · rintro (h | h) <;> cases heval.symm.trans h
  · simp only [CommandLine.runShell, hescape]

end Curried
