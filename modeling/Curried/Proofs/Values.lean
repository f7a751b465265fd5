import Curried.Proofs.Invariant

/-!
# Proofs — values

`Tree.IsValue` lists what an evaluation can yield: a number, a text, nil, an integer or a truth
value of the host, a function `(λ p b)` without arguments, `(ι)`, and the bare form `_`.  Nothing
else is ever a value, whatever trees the frames hold (`invariant_isValue`): an operator that is
looked up, spliced or rebuilt is one of these.

A value other than `_` evaluates to itself on every stack (`Tree.IsValue.evaluate`), so evaluating a
second time changes nothing.  The bare `_` has no value of its own.
-/

namespace Curried

/-- What an evaluation can yield. -/
inductive Tree.IsValue : Tree → Prop where
  | num (n : Number) : IsValue (.num n)
  | text (s : String) : IsValue (.text s)
  | nil : IsValue .nil
  | int (n : Int) : IsValue (.host (.int n))
  | bool (b : Bool) : IsValue (.host (.bool b))
  | function (p b : Tree) : IsValue (.app (.form .lambda) [p, b])
  | iota : IsValue (.app (.form .iota) [])
  | ignore : IsValue (.form .ignore)

/-- A leaf that is there, and neither a name nor a form, is a value. -/
theorem Tree.isValue_leaf {t : Tree} (hsym : ∀ x, t ≠ .sym x) (hform : ∀ f, t ≠ .form f)
    (happ : ∀ f as, t ≠ .app f as) (habsent : t ≠ .host .absent) : t.IsValue := by
  cases t with
  | num n => exact .num n
  | text s => exact .text s
  | nil => exact .nil
  | sym x => exact absurd rfl (hsym x)
  | form f => exact absurd rfl (hform f)
  | app f as => exact absurd rfl (happ f as)
  | host h =>
      cases h with
      | int n => exact .int n
      | bool b => exact .bool b
      | absent => exact absurd rfl habsent

/-- **Evaluation yields values only**, of any tree on any stack. -/
theorem invariant_isValue : Invariant (fun _ _ => True) Tree.IsValue where
  tree _ _ := trivial
  bound _ _ := trivial
  leaf _ hsym hform happ habsent := Tree.isValue_leaf hsym hform happ habsent
  nil := .nil
  ignore _ := .ignore
  iota := .iota
  function _ := .function _ _
  operator _ _ := trivial
  operand _ _ _ _ := trivial
  definedName _ _ := trivial
  definedValue _ := trivial
  definedBody _ _ := trivial
  definedCall _ _ _ := trivial
  argument _ _ := trivial
  parameter _ _ := trivial
  boundBody _ _ := trivial
  plainBody _ _ := trivial
  applied _ _ _ := trivial
  rebuilt _ _ _ := trivial
  spliced _ := trivial

/-- **A value evaluates to itself**, unless it is the bare `_`. -/
theorem Tree.IsValue.evaluate {v : Tree} (h : v.IsValue) (hv : v ≠ .form .ignore) (limit : Nat)
    (stack : Stack) : (evaluate (limit + 1) stack v).outcome = .value v := by
  cases h with
  | num | text | nil | int | bool | function | iota => rfl
  | ignore => exact absurd rfl hv

/-- **Values and their stability.**  The values of evaluations are exactly the trees `IsValue`, and
each of them is its own value on every stack, except for the bare `_`, which has none. -/
theorem values_stable (v : Tree) :
    ((∃ limit stack e, (evaluate limit stack e).outcome = .value v) ↔ v.IsValue) ∧
    (v.IsValue → v ≠ .form .ignore →
      ∀ limit stack, (evaluate (limit + 1) stack v).outcome = .value v) ∧
    ∀ limit stack,
      (evaluate (limit + 1) stack (.form .ignore)).outcome = .fault (.bareForm .ignore) := by
  refine ⟨⟨?_, ?_⟩, fun h hv => h.evaluate hv, fun limit stack => rfl⟩
  · rintro ⟨limit, stack, e, h⟩
    exact invariant_isValue.value trivial h
  · intro h
    by_cases hv : v = .form .ignore
    · subst hv
      exact ⟨1, [], .app (.form .ignore) [], rfl⟩
    · exact ⟨1, [], v, h.evaluate hv 0 []⟩

/-- What `(δ f (λ x x) f)` evaluates to is a value on a stack that binds `x` as well. -/
theorem values_stable_function :
    (Tree.app (.form .lambda) [.sym "x", .sym "x"]).IsValue ∧
      (evaluate 1 [[("x", .nil)]] (.app (.form .lambda) [.sym "x", .sym "x"])).outcome =
        .value (.app (.form .lambda) [.sym "x", .sym "x"]) := by
  obtain ⟨exact_iff, stable, -⟩ := values_stable (.app (.form .lambda) [.sym "x", .sym "x"])
  have hvalue : (Tree.app (.form .lambda) [.sym "x", .sym "x"]).IsValue :=
    exact_iff.mp ⟨4, [], .app (.form .delta) [.sym "f", .app (.form .lambda) [.sym "x", .sym "x"],
      .sym "f"], rfl⟩
  exact ⟨hvalue, stable hvalue (by simp) 0 _⟩

end Curried
