import Curried.Proofs.RoundTrip
import Curried.Shell

/-!
# Proofs — a session has no memory

One stack serves all calls of a session: texts and files that are evaluated for their value, resets,
and what the shell evaluates and prints.  Every evaluation gives back the stack that it found, so
between calls the stack is empty, and each call is answered as if it were the first
(`session_without_memory`).

* `Session.stack_eval`, `Session.stack_load`: a text or a file leaves the stack as it was, also
  where it fails halfway, in an evaluation or in reading a later expression.
* `Shell.stack_eval_of_tooDeep`: after an evaluation that went too deep the shell drops all frames,
  those too that were there before.
-/

namespace Curried

namespace Session

/-- Expressions evaluated in turn leave the stack as it was. -/
theorem stack_evalAll (limit : Nat) (stack : Stack) (last : Tree) (trees : List Tree) :
    (evalAll limit stack last trees).stack = stack := by
  induction trees generalizing last with
  | nil => rfl
  | cons t trees ih =>
      refine Run.stack_andThen ?_ fun v => ih v
      rw [Run.stack_noting, stack_evalTree]

/-- **A text leaves the stack as it was.** -/
theorem stack_eval (limit : Nat) (stack : Stack) (source : String) :
    (eval limit stack source).stack = stack := by
  rw [eval]
  split
  · rfl
  · -- A fault of reading counts only after the expressions before it have been evaluated.
    refine Run.stack_andThen (stack_evalAll limit stack .nil _) fun v => ?_
    split <;> rfl

/-- **A file leaves the stack as it was.** -/
theorem stack_load (limit : Nat) (files : Files) (stack : Stack) (path : String) :
    (load limit files stack path).stack = stack := by
  unfold load loadBy
  split
  · rfl
  · rw [Run.stack_noting]
    split
    · rfl
    · exact stack_eval limit stack _

end Session

/-- A text leaves the stack as it was, also where the host runs out of room on it. -/
theorem Console.stack_eval (console : Console) (stack : Stack) (source : String) :
    (console.eval stack source).stack = stack := by
  rw [eval]
  split <;> exact Session.stack_eval console.limit stack source

namespace Shell

variable (console : Console)

theorem stack_printFault (stack : Stack) (log : List Event) (f : Fault) :
    (printFault console stack log f).stack = stack := by
  rw [printFault]
  split <;> rfl

variable {console} in
/-- An evaluation that went too deep leaves the shell without frames, whatever there was. -/
theorem stack_eval_of_tooDeep {stack : Stack} {source : String}
    (h : (console.eval stack source).outcome = .tooDeep) :
    (eval console stack source).stack = [] := by
  simp only [eval, h]

/-- **A text leaves the shell without frames** if there were none. -/
theorem stack_eval (source : String) : (eval console [] source).stack = [] := by
  have hstack := console.stack_eval [] source
  cases h : (console.eval [] source).outcome with
  | tooDeep => exact stack_eval_of_tooDeep h
  | fault f =>
      simp only [eval, h]
      rw [stack_printFault, hstack]
  | value v =>
      simp only [eval, h]
      split <;> exact hstack

theorem stack_load (files : Files) (path : String) : (load console files [] path).stack = [] := by
  rw [load]
  split
  · rfl
  · split
    · rfl
    · exact stack_printFault console [] [] _
    · exact stack_eval console _

/-- **A line leaves the shell without frames** if there were none. -/
theorem stack_step (files : Files) (line : String) : (step console files [] line).stack = [] := by
  rw [step]
  split
  · rfl
  · exact stack_load console files _
  · rfl
  · rfl
  · rfl
  · exact stack_eval console _

end Shell

/-! ### Calls -/

/-- A call on a session. -/
inductive Call where
  /-- A text is evaluated for its value. -/
  | eval (source : String)
  /-- A file is evaluated for its value. -/
  | load (path : String)
  /-- All frames are dropped. -/
  | reset
  /-- The shell evaluates a text and prints. -/
  | run (source : String)
  /-- The shell executes a line. -/
  | line (text : String)

/-- The answer to a call: an evaluation, what the shell does, or nothing after a reset. -/
inductive Reply where
  | ended (run : Run)
  | printed (step : Shell.Step)
  | dropped

/-- The stack that a call leaves. -/
def Reply.stack : Reply → Stack
  | ended run => run.stack
  | printed step => step.stack
  | dropped => []

/-- Answers a call on a stack.  The frames after a text or a file that went too deep are those of
`Run.within`, which releases all that it binds; that the shell does not rely on this is what
`Shell.stack_eval_of_tooDeep` says. -/
def Call.reply (console : Console) (files : Files) (stack : Stack) : Call → Reply
  | eval source => .ended (Session.eval console.limit stack source)
  | load path => .ended (Session.load console.limit files stack path)
  | reset => .dropped
  | run source => .printed (Shell.eval console stack source)
  | line text => .printed (Shell.step console files stack text)

/-- Answers calls one after the other, each on the stack that the one before it leaves.  So this is
idealised where a call for the value of a text or a file goes too deep and others follow it. -/
def Session.replies (console : Console) (files : Files) : Stack → List Call → List Reply
  | _, [] => []
  | stack, call :: calls =>
    let reply := call.reply console files stack
    reply :: replies console files reply.stack calls

/-- One call on an empty stack leaves an empty stack. -/
theorem Call.stack_reply (console : Console) (files : Files) (call : Call) :
    (call.reply console files []).stack = [] := by
  cases call with
  | eval source => exact Session.stack_eval console.limit [] source
  | load path => exact Session.stack_load console.limit files [] path
  | reset => rfl
  | run source => exact Shell.stack_eval console source
  | line text => exact Shell.stack_step console files text

/-- So each call of a session is answered as on an empty stack. -/
theorem Session.replies_eq_map (console : Console) (files : Files) (calls : List Call) :
    Session.replies console files [] calls = calls.map (Call.reply console files []) := by
  induction calls with
  | nil => rfl
  | cons call calls ih => rw [Session.replies, Call.stack_reply, ih, List.map_cons]

/-- **A session has no memory.**  Whatever calls are made on a fresh session, one after the other
with the same files, each leaves an empty stack, and each is answered as if it were made first.  The
shell drops all frames after an evaluation that went too deep, on whatever stack that was. -/
theorem session_without_memory (console : Console) (files : Files) :
    (∀ calls, (∀ reply ∈ Session.replies console files [] calls, reply.stack = []) ∧
      Session.replies console files [] calls = calls.map (Call.reply console files [])) ∧
    ∀ stack source, (console.eval stack source).outcome = .tooDeep →
      (Shell.eval console stack source).stack = [] := by
  refine ⟨fun calls => ⟨?_, Session.replies_eq_map console files calls⟩, fun stack source h => ?_⟩
  · intro reply hreply
    rw [Session.replies_eq_map] at hreply
    obtain ⟨call, -, rfl⟩ := List.mem_map.mp hreply
    exact call.stack_reply console files
  · exact Shell.stack_eval_of_tooDeep h

/-- `((λ x (x x)) (λ x (x x)))` -/
def Tree.endless : Tree :=
  .app (.form .lambda) [.sym "x", .app (.sym "x") [.sym "x"],
    .app (.form .lambda) [.sym "x", .app (.sym "x") [.sym "x"]]]

/-- A run that goes too deep, here with a frame that was there before, and what is answered after
it. -/
theorem session_without_memory_endless :
    let console : Console := ⟨9, 9, "error: ", fun _ _ => none⟩
    (console.eval [[("y", .nil)]] "((λ x (x x)) (λ x (x x)))").outcome = .tooDeep ∧
      (Shell.eval console [[("y", .nil)]] "((λ x (x x)) (λ x (x x)))").stack = [] ∧
      Session.replies console ⟨fun _ => none, [], fun _ => .missing⟩ []
          [.run "((λ x (x x)) (λ x (x x)))", .eval "y"] =
        [.printed (Shell.eval console [] "((λ x (x x)) (λ x (x x)))"),
          .ended (Session.eval 9 [] "y")] := by
  intro console
  obtain ⟨calls, overflow⟩ := session_without_memory console ⟨fun _ => none, [], fun _ => .missing⟩
  have hdeep : (console.eval [[("y", .nil)]] "((λ x (x x)) (λ x (x x)))").outcome = .tooDeep :=
    (Session.eval_of_parse (t := .endless) rfl).trans rfl
  exact ⟨hdeep, overflow _ _ hdeep, (calls _).2⟩

end Curried
