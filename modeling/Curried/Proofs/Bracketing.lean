import Curried.Evaluation

/-!
# Proofs — bracketed bindings

Names are bound for the time of a block, in a frame of their own or merged into the innermost one,
and the blocks may be nested in any way.  `Move` is what can happen on the way: a block is entered,
a name is looked up, or the latest block is left, at its end or by a fault.  `Move.opened?` follows
the moves without a stack: it keeps the list of the blocks that are open, and has no answer if a
block is left where none is open.

A merged binding remembers what its name meant in its frame before, which may be the value of a
block further out, and the frame may itself belong to a block.  All of it comes down to one fact:
after any moves, the stack and its brackets are what entering the open blocks alone would give
(`Scopes.after_entered`).  Leaving the latest of them gives back what was there before it was
entered (`Scopes.Grounded.leave_enter`), since no bracket that is open below it belongs to a frame
that is removed.  So look-up finds the innermost open block, and with no block open the stack is the
one from the beginning (`bracketed_bindings`).
-/

namespace Curried

/-- How a block binds its name. -/
inductive Way where
  /-- In a frame of its own. -/
  | scope
  /-- In the innermost frame. -/
  | merge

/-- A block, by what it binds. -/
structure Block where
  way : Way
  name : String
  value : Tree

namespace Block

/-- The stack inside the block, and what leaving it has to do. -/
def bind (b : Block) (stack : Stack) : Stack × Bracket :=
  match b.way with
  | .scope => Bracket.scope stack b.name b.value
  | .merge => Bracket.merge stack b.name b.value

/-- Inside the block its name means its value, and the others mean what they did. -/
theorem lookup?_bind (b : Block) (stack : Stack) (y : String) :
    (b.bind stack).1.lookup? y = if b.name = y then some b.value else stack.lookup? y := by
  obtain ⟨_ | _, x, v⟩ := b
  · exact Bracket.lookup?_scope stack x v y
  · exact Bracket.lookup?_merge stack x v y

/-- Releasing the binding gives the stack back. -/
theorem release_bind (b : Block) (stack : Stack) :
    (b.bind stack).2.release (b.bind stack).1 = stack := by
  obtain ⟨_ | _, x, v⟩ := b
  · exact Bracket.release_scope stack x v
  · exact Bracket.release_merge stack x v

/-- A binding belongs to a frame that is there, and no frame is lost. -/
theorem cut_bind (b : Block) (stack : Stack) :
    (b.bind stack).2.cut (b.bind stack).1.length = (b.bind stack).2 ∧
      stack.length ≤ (b.bind stack).1.length := by
  obtain ⟨_ | _, x, v⟩ := b
  · exact ⟨rfl, Nat.le_succ _⟩
  · cases stack with
    | nil => exact ⟨rfl, Nat.le_succ _⟩
    | cons frame below => exact ⟨if_neg (Nat.not_succ_le_self _), Nat.le_refl _⟩

end Block

/-- A bracket that keeps its frame when the frames from some level on are removed keeps it when
fewer are. -/
theorem Bracket.cut_of_le {b : Bracket} {m n : Nat} (h : b.cut m = b) (hmn : m ≤ n) :
    b.cut n = b := by
  cases b with
  | frame => rfl
  | gone => rfl
  | binding level x previous =>
      simp only [cut, ite_eq_right_iff, reduceCtorEq, imp_false] at h ⊢
      omega

/-- What can happen between two looks at a stack. -/
inductive Move where
  /-- A block is entered. -/
  | enter (block : Block)
  /-- A name is looked up. -/
  | look (name : String)
  /-- The latest block is left, at its end or by a fault. -/
  | leave (fault? : Option Fault)

/-- The blocks that are open after the moves, the innermost first, if `blocks` were open before.
There is no answer if a block is left where none is open. -/
def Move.opened? : List Block → List Move → Option (List Block)
  | blocks, [] => some blocks
  | blocks, .enter b :: moves => opened? (b :: blocks) moves
  | blocks, .look _ :: moves => opened? blocks moves
  | _ :: blocks, .leave _ :: moves => opened? blocks moves
  | [], .leave _ :: _ => none

namespace Scopes

/-- One move: what it answers, and the scopes after it.  Leaving passes on the fault that the block
is left by, unless releasing the binding fails itself. -/
def move (s : Scopes) : Move → Except Fault (Option Tree) × Scopes
  | .enter b => (.ok none, s.enter (b.bind s.stack))
  | .look y => ((s.stack.lookup y).map some, s)
  | .leave fault? => match s.leave.1.or fault? with
    | some f => (.error f, s.leave.2)
    | none => (.ok none, s.leave.2)

/-- The scopes after several moves. -/
def after (s : Scopes) (moves : List Move) : Scopes := moves.foldl (fun s m => (s.move m).2) s

/-- The scopes in which just these blocks are open, the innermost first. -/
def entered (stack : Stack) : List Block → Scopes
  | [] => ofStack stack
  | b :: blocks => (entered stack blocks).enter (b.bind (entered stack blocks).stack)

/-! ### Leaving the latest block -/

/-- Every open bracket that belongs to a frame belongs to one that is there. -/
def Grounded (s : Scopes) : Prop := ∀ b ∈ s.opened, b.cut s.stack.length = b

namespace Grounded

variable {s : Scopes}

theorem enter (h : s.Grounded) (b : Block) : (s.enter (b.bind s.stack)).Grounded := by
  obtain ⟨hcut, hle⟩ := b.cut_bind s.stack
  exact List.forall_mem_cons.mpr ⟨hcut, fun c hc => Bracket.cut_of_le (h c hc) hle⟩

/-- Removing a frame that was pushed leaves every bracket alone. -/
theorem map_cut (h : s.Grounded) : s.opened.map (Bracket.cut s.stack.length) = s.opened :=
  (List.map_congr_left h).trans (List.map_id s.opened)

/-- **Leaving gives back what was there before entering**, and does not fail. -/
theorem leave_enter (h : s.Grounded) (b : Block) :
    (s.enter (b.bind s.stack)).leave = (none, s) := by
  have hcut := h.map_cut
  have hrelease := b.release_bind s.stack
  obtain ⟨stack, opened⟩ := s
  -- A frame that was pushed is popped; a binding in a frame that was there is put back.
  have hpop : ((none, ⟨stack, opened.map (Bracket.cut stack.length)⟩) : Option Fault × Scopes) =
      (none, ⟨stack, opened⟩) := congrArg (fun opened => (none, Scopes.mk stack opened)) hcut
  obtain ⟨_ | _, x, v⟩ := b
  · exact hpop
  · cases stack with
    | nil => exact hpop
    | cons frame below => exact congrArg (fun stack => (none, Scopes.mk stack opened)) hrelease

end Grounded

theorem grounded_entered (stack : Stack) (blocks : List Block) :
    (entered stack blocks).Grounded := by
  induction blocks with
  | nil => intro b hb; cases hb
  | cons b blocks ih => exact ih.enter b

/-- The latest block is left. -/
theorem leave_entered (stack : Stack) (b : Block) (blocks : List Block) :
    (entered stack (b :: blocks)).leave = (none, entered stack blocks) :=
  (grounded_entered stack blocks).leave_enter b

/-! ### After any moves -/

/-- A block that is left by a fault passes the fault on, and nothing else. -/
theorem move_leave_entered (stack : Stack) (b : Block) (blocks : List Block)
    (fault? : Option Fault) :
    (entered stack (b :: blocks)).move (.leave fault?) =
      (fault?.elim (.ok none) .error, entered stack blocks) := by
  cases fault? <;> simp [move, leave_entered]

/-- **After any moves the scopes are those of the open blocks.** -/
theorem after_entered (stack : Stack) {blocks blocks' : List Block} {moves : List Move}
    (h : Move.opened? blocks moves = some blocks') :
    (entered stack blocks).after moves = entered stack blocks' := by
  fun_induction Move.opened? blocks moves with
  | case1 blocks => cases h; rfl
  | case2 blocks b moves ih => exact ih h
  | case3 blocks y moves ih => exact ih h
  | case4 b blocks fault? moves ih =>
      rw [after, List.foldl_cons, move_leave_entered]
      exact ih h
  | case5 => cases h

/-- A name means what the innermost open block says that binds it, or what it meant at first. -/
theorem lookup?_entered (stack : Stack) (blocks : List Block) (y : String) :
    (entered stack blocks).stack.lookup? y =
      ((blocks.find? (·.name = y)).map Block.value).or (stack.lookup? y) := by
  induction blocks with
  | nil => rfl
  | cons b blocks ih =>
      rw [entered, enter, b.lookup?_bind, ih]
      by_cases hb : b.name = y <;> simp [hb]

end Scopes

/-- A name that no frame binds is a fault. -/
theorem Stack.lookup_of_forall {stack : Stack} {y : String}
    (h : ∀ frame ∈ stack, Frame.binds frame y = false) : stack.lookup y = .error (.unbound y) := by
  have hnone : stack.lookup? y = none := by
    refine List.findSome?_eq_none_iff.mpr fun frame hframe => ?_
    simpa [Frame.binds] using h frame hframe
  rw [lookup, hnone]

/-- **Bindings are bracketed.**  Let blocks be entered and left on a stack, the latest always first,
with look-ups in between, so that after the moves so far just `blocks` are open.  Then

* a name means the value of the innermost open block that binds it, or what it meant on the stack
  at the beginning if there is none;
* so a name that neither an open block nor a frame of that stack binds is an unbound name;
* the latest block can be left, and passes on the fault that it is left by, if there is one;
* if no block is open, the stack is the one at the beginning, every frame with its names in their
  order, and no bracket is left over;
* nor does it differ after a block of an evaluation around such moves, however that block ends. -/
theorem bracketed_bindings (stack : Stack) {moves : List Move} {blocks : List Block}
    (h : Move.opened? [] moves = some blocks) :
    (∀ y, ((Scopes.ofStack stack).after moves).stack.lookup y =
      match blocks.find? (·.name = y) with
      | some b => .ok b.value
      | none => stack.lookup y) ∧
    (∀ y, (∀ b ∈ blocks, b.name ≠ y) → (∀ frame ∈ stack, Frame.binds frame y = false) →
      ((Scopes.ofStack stack).after moves).stack.lookup y = .error (.unbound y)) ∧
    (∀ fault?, blocks ≠ [] → (((Scopes.ofStack stack).after moves).move (.leave fault?)).1 =
      fault?.elim (.ok none) .error) ∧
    (blocks = [] → (Scopes.ofStack stack).after moves = .ofStack stack) ∧
    (blocks = [] → ∀ (b : Block) (outcome : Outcome) (log : List Event),
      Run.within (b.bind stack) (fun inner =>
        ⟨outcome, ((Scopes.ofStack inner).after moves).stack, log⟩) = ⟨outcome, stack, log⟩) := by
  have hafter : ∀ stack, (Scopes.ofStack stack).after moves = .entered stack blocks :=
    fun stack => Scopes.after_entered stack h
  have hlook : ∀ y, ((Scopes.ofStack stack).after moves).stack.lookup y =
      match blocks.find? (·.name = y) with
      | some b => .ok b.value
      | none => stack.lookup y := by
    intro y
    rw [hafter, Stack.lookup, Scopes.lookup?_entered]
    cases blocks.find? (·.name = y) <;> rfl
  refine ⟨hlook, fun y hblocks hframes => ?_, fun fault? hne => ?_, ?_, ?_⟩
  · have hnone : blocks.find? (·.name = y) = none :=
      List.find?_eq_none.mpr fun b hb => by simpa using hblocks b hb
    rw [hlook, hnone]
    exact Stack.lookup_of_forall hframes
  · obtain ⟨b, rest, rfl⟩ := List.exists_cons_of_ne_nil hne
    rw [hafter, Scopes.move_leave_entered]
  · rintro rfl
    exact hafter stack
  · rintro rfl b outcome log
    have hinner : ((Scopes.ofStack (b.bind stack).1).after moves).stack = (b.bind stack).1 :=
      congrArg Scopes.stack (hafter _)
    rw [Run.within, hinner, b.release_bind]

/-- A frame in which two bindings of one name are merged, one on top of the other, with a scope
between them. -/
def Move.piled : List Move :=
  [.enter ⟨.merge, "x", .text "a"⟩, .enter ⟨.merge, "w", .text "b"⟩,
    .enter ⟨.scope, "y", .text "c"⟩, .enter ⟨.merge, "x", .text "d"⟩, .look "x",
    .leave (some (.unbound "q")), .leave none]

/-- The outer binding of `x` is back after the inner one has been left, the scope of `y` is gone,
and leaving the rest gives back a frame with `x` before `z`. -/
theorem bracketed_bindings_piled :
    Move.opened? [] Move.piled = some [⟨.merge, "w", .text "b"⟩, ⟨.merge, "x", .text "a"⟩] ∧
    Move.opened? [] (Move.piled ++ [.leave none, .leave none]) = some [] ∧
    ((Scopes.ofStack [[("x", .nil), ("z", .nil)]]).after Move.piled).stack.lookup "x" =
      .ok (.text "a") ∧
    ((Scopes.ofStack [[("x", .nil), ("z", .nil)]]).after Move.piled).stack.lookup "z" = .ok .nil ∧
    ((Scopes.ofStack [[("x", .nil), ("z", .nil)]]).after Move.piled).stack.lookup "y" =
      .error (.unbound "y") ∧
    (((Scopes.ofStack [[("x", .nil), ("z", .nil)]]).after Move.piled).move
      (.leave (some .noValue))).1 = .error .noValue ∧
    (Scopes.ofStack [[("x", .nil), ("z", .nil)]]).after (Move.piled ++ [.leave none, .leave none]) =
      .ofStack [[("x", .nil), ("z", .nil)]] ∧
    Run.within (Bracket.merge [[("x", .nil), ("z", .nil)]] "x" (.text "e")) (fun inner =>
      ⟨.fault .noValue, ((Scopes.ofStack inner).after
        (Move.piled ++ [.leave none, .leave none])).stack, []⟩) =
      ⟨.fault .noValue, [[("x", .nil), ("z", .nil)]], []⟩ := by
  have hopen : Move.opened? [] Move.piled =
      some [⟨.merge, "w", .text "b"⟩, ⟨.merge, "x", .text "a"⟩] := rfl
  have hshut : Move.opened? [] (Move.piled ++ [.leave none, .leave none]) = some [] := rfl
  obtain ⟨hlook, hunbound, hleave, -, -⟩ := bracketed_bindings [[("x", .nil), ("z", .nil)]] hopen
  obtain ⟨-, -, -, hclosed, hwithin⟩ := bracketed_bindings [[("x", .nil), ("z", .nil)]] hshut
  refine ⟨hopen, hshut, hlook "x", hlook "z", hunbound "y" (by simp) ?_, hleave _ (by simp),
    hclosed rfl, hwithin rfl ⟨.merge, "x", .text "e"⟩ _ _⟩
  simp [Frame.binds, Frame.lookup?]

end Curried
