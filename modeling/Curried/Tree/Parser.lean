import Curried.Token.Lexer

/-!
# Tree — parser

    atom       := keyword | literal | identifier
    expression := atom | '(' operator expression* ')'
    operator   := identifier | keyword | '(' operator expression* ')'

A group whose first item is a literal has no operator of its own; it is read with `ι` in front, so
`(1 2)` is `(ι 1 2)`.  An operator that is itself a group is spliced: `((f a) b)` is `(f a b)`.

The parser walks the tokens once, from left to right, with the groups that are still open beside
it, innermost first.  Every step takes one token, and what is left of the tokens is part of the
answer, also when reading fails.
-/

namespace Curried

/-- A result and the tokens that were left. -/
structure Reading (α : Type) where
  result : Except Fault α
  rest : List Token

/-- The same reading with another value. -/
def Reading.map {α β : Type} (f : α → β) (r : Reading α) : Reading β :=
  ⟨r.result.map f, r.rest⟩

/-- The tree of an atom.  The value of a name token has to be a text. -/
def Token.atom (t : Token) : Except Fault Tree :=
  match t.kind, t.value with
  | .identifier, .text name => .ok (.sym name)
  | .identifier, value => .error (.notText value)
  | _, value => .ok value

/-- A group that is still open. -/
structure Group where
  /-- Where it was opened. -/
  opening : Position
  /-- Its operator, once read. -/
  operator? : Option Tree
  /-- Its operands so far, the latest first. -/
  operands : List Tree

namespace Group

/-- A group that has just been opened by a token. -/
def start (opening : Token) : Group := ⟨opening.position, none, []⟩

/-- Adds an item that can be an operator. -/
def add (g : Group) (t : Tree) : Group :=
  match g.operator? with
  | none => { g with operator? := some t }
  | some _ => { g with operands := t :: g.operands }

/-- Adds a literal.  As a first item it makes `ι` the operator. -/
def addLiteral (g : Group) (t : Tree) : Group :=
  match g.operator? with
  | none => { g with operator? := some (.form .iota), operands := [t] }
  | some _ => { g with operands := t :: g.operands }

/-- The tree of a group with this operator. -/
def close (g : Group) (operator : Tree) : Tree := operator.apply g.operands.reverse

/-- The fault if the tokens end inside the group. -/
def endFault (g : Group) : Fault :=
  match g.operator? with
  | none => .endAfter g.opening
  | some _ => .unclosed g.opening

/-- Reads on inside `g`, with the groups around it, up to the token that closes the outermost of
them, and yields that group. -/
def read : Group → List Group → List Token → Reading Group
  | g, _, [] => ⟨.error g.endFault, []⟩
  | g, around, t :: ts =>
    match t.kind with
    | .keyword => read (g.add t.value) around ts
    | .literal => read (g.addLiteral t.value) around ts
    | .identifier => match t.atom with
      | .ok tree => read (g.add tree) around ts
      | .error f => ⟨.error f, ts⟩
    | .opening => read (start t) (g :: around) ts
    | .closing => match g.operator? with
      | none => ⟨.error ((Fault.noOperator t).about t), ts⟩
      | some operator => match around with
        | [] => ⟨.ok g, ts⟩
        | outer :: around => read (outer.add (g.close operator)) around ts
    | .other _ => ⟨.error ((Fault.unexpected t).about t), t :: ts⟩

/-- Reading never adds tokens. -/
theorem length_rest_read_le (g : Group) (around : List Group) (ts : List Token) :
    (g.read around ts).rest.length ≤ ts.length := by
  induction ts generalizing g around with
  | nil => simp [Group.read]
  | cons t ts ih =>
    have step : ∀ g around, (Group.read g around ts).rest.length ≤ ts.length + 1 :=
      fun g around => Nat.le_succ_of_le (ih g around)
    unfold Group.read
    split
    · exact step _ _
    · exact step _ _
    · split
      · exact step _ _
      · simp
    · exact step _ _
    · split
      · simp
      · split
        · simp
        · exact step _ _
    · simp

/-- The tree of a group that has been read. -/
def tree (g : Group) : Tree := g.close (g.operator?.getD (.form .iota))

end Group

namespace Tree

/-- Reads a group whose opening token comes first, whatever its kind. -/
def readGroup : List Token → Reading Tree
  | [] => ⟨.error .endOfInput, []⟩
  | t :: ts => ((Group.start t).read [] ts).map Group.tree

/-- Reads operands up to a closing token, for a group that was opened by `opening`. -/
def readOperands (opening : Token) (ts : List Token) : Reading (List Tree) :=
  (Group.read ⟨opening.position, some (.form .iota), []⟩ [] ts).map fun g => g.operands.reverse

/-- Reads one expression. -/
def readOne : List Token → Reading Tree
  | [] => ⟨.error .endOfInput, []⟩
  | t :: ts =>
    match t.kind with
    | .keyword | .literal | .identifier => ⟨t.atom, ts⟩
    | .opening => readGroup (t :: ts)
    | .closing | .other _ => ⟨.error ((Fault.unexpected t).about t), t :: ts⟩

/-- Reading an expression takes at least one token. -/
theorem length_rest_readOne_lt {ts : List Token} {tree : Tree} (h : (readOne ts).result = .ok tree) :
    (readOne ts).rest.length < ts.length := by
  cases ts with
  | nil => simp [readOne] at h
  | cons t ts =>
    rw [readOne] at h ⊢
    split
    · simp
    · simp
    · simp
    · exact Nat.lt_succ_of_le (Group.length_rest_read_le _ _ _)
    · simp_all
    · simp_all

end Tree

/-- Expressions read one after the other, the fault that stopped reading, if one did, and the tokens
that were left. -/
structure Readings where
  trees : List Tree
  fault? : Option Fault
  rest : List Token

namespace Tree

/-- Reads expressions until the tokens end. -/
def readAll (ts : List Token) : Readings :=
  if ts = [] then ⟨[], none, []⟩
  else match h : (readOne ts).result with
    | .error f => ⟨[], some f, (readOne ts).rest⟩
    | .ok tree =>
      have := length_rest_readOne_lt h
      let others := readAll (readOne ts).rest
      { others with trees := tree :: others.trees }
termination_by ts.length

/-- Reads exactly one expression; no tokens at all are nil. -/
def readSingle (ts : List Token) : Except Fault Tree :=
  if ts = [] then .ok .nil
  else match readOne ts with
    | ⟨.error f, _⟩ => .error f
    | ⟨.ok tree, []⟩ => .ok tree
    | ⟨.ok _, t :: _⟩ => .error ((Fault.trailing t).about t)

/-- Parses a source text that holds one expression. -/
def parse (source : String) : Except Fault Tree := (lex source).result.bind readSingle

end Tree

end Curried
