import Curried.Tree

/-!
# Tree — substitution

`Tree.substitute x v t` puts `v` in place of the name `x` in `t`.  It stops at `δ`, `λ` and `ε`
that bind the same name.  An operator is replaced if it is the name itself; inside any other
operator nothing is replaced.
-/

namespace Curried.Tree

/-- Whether an operator with its operands binds the name `x`. -/
def shadows (x : String) : Tree → List Tree → Bool
  | .form f, .sym y :: _ => f.binds && y == x
  | _, _ => false

/-- A leaf, with `v` in place of the name `x`. -/
def substituteLeaf (x : String) (v : Tree) : Tree → Tree
  | .sym y => if y = x then v else .sym y
  | t => t

mutual

/-- `t` with `v` in place of the name `x`. -/
def substitute (x : String) (v : Tree) : Tree → Tree
  | .app f as =>
    if shadows x f as then .app f as else .app (substituteLeaf x v f) (substituteAll x v as)
  | t => substituteLeaf x v t

/-- Several trees with `v` in place of the name `x`. -/
def substituteAll (x : String) (v : Tree) : List Tree → List Tree
  | [] => []
  | t :: ts => substitute x v t :: substituteAll x v ts

end

theorem substituteAll_eq_map (x : String) (v : Tree) (ts : List Tree) :
    substituteAll x v ts = ts.map (substitute x v) := by
  induction ts with
  | nil => rfl
  | cons t ts ih => simp [substituteAll, ih]

end Curried.Tree
