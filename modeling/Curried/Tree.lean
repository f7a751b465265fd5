import Curried.Form
import Curried.Number.Printer

/-!
# Tree

The expressions of the language.  A tree is a leaf — a number, a text, nil, a name, a form, or a
value that the host program put there — or an application of an operator to operands.

* `Tree.source` writes a tree as source text.  Of the host values only the integers within the
  range of the finite numbers have one; `Tree.sourceless?` finds the first leaf that has none.
* `Tree.plain` is the text shown to people: a bare text has no quotes and a bare number has a point.
* `Tree.apply` applies an operator with curry splicing: `((f a) b)` becomes `(f a b)`.
-/

namespace Curried

/-- A value of the host program: an integer, a truth value, or no value. -/
inductive Host where
  | int (n : Int)
  | bool (b : Bool)
  | absent
deriving DecidableEq

namespace Host

/-- The text of a host value, as inspection shows it. -/
def plain : Host → String
  | int n => Number.integerText n
  | bool true => "True"
  | bool false => "False"
  | absent => "None"

/-- A host truth value counts as the integer 0 or 1. -/
def toInt? : Host → Option Int
  | .int n => some n
  | .bool b => some (if b then 1 else 0)
  | .absent => none

/-- Numeric equality of host values; no value equals no value. -/
def same : Host → Host → Bool
  | .absent, .absent => true
  | a, b => match toInt? a, toInt? b with
    | some m, some n => m == n
    | _, _ => false

/-- A number equals a host value if it equals its integer. -/
def sameNumber (n : Number) (h : Host) : Bool :=
  match toInt? h with
  | some k => n.sameInt k
  | none => false

/-- Source text is there for an integer whose nearest number is finite.  One that rounds past the
largest number has none, nor has a truth value or no value. -/
def hasSource : Host → Bool
  | .int n => (Number.ofInt n).isFinite
  | .bool _ | .absent => false

end Host

/-- An expression. -/
inductive Tree where
  | num (n : Number)
  | text (s : String)
  | nil
  | sym (name : String)
  | form (f : Form)
  | host (h : Host)
  | app (operator : Tree) (operands : List Tree)

instance : Inhabited Tree := ⟨.nil⟩

namespace Tree

/-! ### Source text -/

mutual

/-- The source text of a tree.  A host integer is written like the nearest number. -/
def source : Tree → String
  | .num n => n.text
  | .text s => "\"" ++ s ++ "\""
  | .nil => "Φ"
  | .sym name => name
  | .form f => f.spelling
  | .host (.int n) => (Number.ofInt n).text
  | .host h => h.plain
  | .app f as => "(" ++ " ".intercalate (f.source :: sources as) ++ ")"

/-- The source texts of several trees. -/
def sources : List Tree → List String
  | [] => []
  | t :: ts => t.source :: sources ts

end

theorem sources_eq_map (ts : List Tree) : sources ts = ts.map source := by
  induction ts with
  | nil => rfl
  | cons t ts ih => simp [sources, ih]

mutual

/-- The first leaf, operators before operands, that has no source text. -/
def sourceless? : Tree → Option Host
  | .host h => if h.hasSource then none else some h
  | .app f as => f.sourceless?.or (sourcelessIn? as)
  | _ => none

/-- The first leaf of several trees that has no source text. -/
def sourcelessIn? : List Tree → Option Host
  | [] => none
  | t :: ts => t.sourceless?.or (sourcelessIn? ts)

end

theorem sourcelessIn?_eq_findSome? (ts : List Tree) :
    sourcelessIn? ts = ts.findSome? sourceless? := by
  induction ts with
  | nil => rfl
  | cons t ts ih => cases h : t.sourceless? <;> simp [sourcelessIn?, ih, h]

/-! ### Plain text -/

/-- The text of a tree in frames and in the log. -/
def plain : Tree → String
  | .num n => n.plain
  | .text s => s
  | .host h => h.plain
  | t => t.source

/-- The first leaf that leaves a tree without plain text; a bare host value has one. -/
def plainless? : Tree → Option Host
  | .host _ => none
  | t => t.sourceless?

/-! ### Application -/

/-- `f` applied to `bs`.  An application in operator position gives its own operator, and its
operands come in front. -/
def apply : Tree → List Tree → Tree
  | .app f as, bs => apply f (as ++ bs)
  | f, bs => .app f bs

/-- An application with its operator spliced. -/
def flatten : Tree → Tree
  | .app f as => f.apply as
  | t => t

/-! ### Literals -/

/-- Literals stand for themselves: numbers, host integers, texts and nil. -/
def isLiteral : Tree → Bool
  | .num _ | .text _ | .nil | .host (.int _) => true
  | _ => false

/-- What counts as true: everything but nil, the zeros, the empty text, and host values that are
zero, false or absent. -/
def isTruthy : Tree → Bool
  | .nil => false
  | .num n => !n.isZero
  | .text s => s != ""
  | .host (.int n) => n != 0
  | .host (.bool b) => b
  | .host .absent => false
  | .sym _ | .form _ | .app _ _ => true

/-! ### Equality -/

mutual

/-- Structural equality, numbers being compared by value. -/
def same : Tree → Tree → Bool
  | .num m, .num n => m.same n
  | .num n, .host h | .host h, .num n => Host.sameNumber n h
  | .host g, .host h => Host.same g h
  | .text s, .text t => s == t
  | .nil, .nil => true
  | .sym x, .sym y => x == y
  | .form f, .form g => f == g
  | .app f as, .app g bs => same f g && sameAll as bs
  | _, _ => false

/-- Structural equality of two sequences. -/
def sameAll : List Tree → List Tree → Bool
  | [], [] => true
  | a :: as, b :: bs => same a b && sameAll as bs
  | _, _ => false

end

/-- Whether a guard `expected` accepts a value `actual`: both are literals and equal. -/
def accepts (expected actual : Tree) : Bool := actual.isLiteral && same expected actual

end Tree

end Curried
