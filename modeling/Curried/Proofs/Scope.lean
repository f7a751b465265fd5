import Curried.Proofs.Shape

/-!
# Proofs — scopes

`Tree.scoping` says which operands lie in the scope of a binder: `(δ x v c …)` binds `x` in
`c …` and not in `v`, `(λ x b a …)` binds it in `b` and not in `a …`, and `(ε x c …)` in all of
`c …`.  `Tree.Free` is the free occurrence of a name with these scopes.

Putting a value in place of `x` does not reach every free `x`.  It does not descend into operators,
and it stops at a binder of `x`, leaving what lies *outside* that binder's scope alone as well: an
`x` there is *stranded* (`Tree.Stranded`), and has to be evaluated while a frame holds it.  An
occurrence in an operand that is *deferred* (`Tree.Deferred`) comes late (`Tree.Late`): the operand
becomes part of a function, which may outlive the frames.

A tree is *well-scoped* if no occurrence is both (`Tree.WellScoped`).  In such a tree, what a
substitution leaves free is stranded (`Tree.free_substitute`) and comes in time
(`Tree.not_late_substitute`), and the tree stays well-scoped (`Tree.wellScoped_substitute`).
-/

namespace Curried

namespace Tree

/-! ### Scopes -/

/-- An application by its scope: the name bound, the operands outside, and the operands inside. -/
structure Scoping where
  binder? : Option String
  outside : List Tree
  inside : List Tree

/-- The scope of an application.  Where nothing is bound, all operands are outside. -/
def scoping : Tree → List Tree → Scoping
  | .form .delta, .sym x :: rest => ⟨some x, rest.take 1, rest.drop 1⟩
  | .form .lambda, .sym x :: rest => ⟨some x, rest.drop 1, rest.take 1⟩
  | .form .epsilon, .sym x :: rest => ⟨some x, [], rest⟩
  | _, as => ⟨none, as, []⟩

/-- The name `x` occurs free. -/
inductive Free (x : String) : Tree → Prop where
  | name : Free x (.sym x)
  | operator {f : Tree} {as : List Tree} (h : Free x f) : Free x (.app f as)
  | outside {f a : Tree} {as : List Tree} (ha : a ∈ (scoping f as).outside) (h : Free x a) :
      Free x (.app f as)
  | inside {f a : Tree} {as : List Tree} (ha : a ∈ (scoping f as).inside)
      (hx : (scoping f as).binder? ≠ some x) (h : Free x a) : Free x (.app f as)

/-- No name occurs free. -/
def Closed (t : Tree) : Prop := ∀ x, ¬ Free x t

theorem free_app_iff {x : String} {f : Tree} {as : List Tree} :
    Free x (.app f as) ↔ Free x f ∨ (∃ a ∈ (scoping f as).outside, Free x a) ∨
      ((scoping f as).binder? ≠ some x ∧ ∃ a ∈ (scoping f as).inside, Free x a) := by
  constructor
  · intro h
    cases h with
    | operator h => exact .inl h
    | outside ha h => exact .inr (.inl ⟨_, ha, h⟩)
    | inside ha hx h => exact .inr (.inr ⟨hx, _, ha, h⟩)
  · rintro (h | ⟨a, ha, h⟩ | ⟨hx, a, ha, h⟩)
    · exact .operator h
    · exact .outside ha h
    · exact .inside ha hx h

theorem free_sym_iff {x y : String} : Free x (.sym y) ↔ x = y :=
  ⟨fun h => by cases h; rfl, fun h => h ▸ .name⟩

@[simp] theorem not_free_form {x : String} {f : Form} : ¬ Free x (.form f) := fun h => nomatch h

@[simp] theorem not_free_nil {x : String} : ¬ Free x .nil := fun h => nomatch h

@[simp] theorem not_free_text {x s : String} : ¬ Free x (.text s) := fun h => nomatch h

theorem closed_leaf {t : Tree} (hsym : ∀ x, t ≠ .sym x) (happ : ∀ f as, t ≠ .app f as) :
    Closed t := by
  intro x h
  cases h with
  | name => exact hsym x rfl
  | operator => exact happ _ _ rfl
  | outside => exact happ _ _ rfl
  | inside => exact happ _ _ rfl

theorem Closed.ne_sym {t : Tree} (h : Closed t) (x : String) : t ≠ .sym x := by
  rintro rfl; exact h x .name

/-- A binding form whose first operand is a name. -/
def Binds (f : Tree) (as : List Tree) : Prop :=
  ∃ g x rest, f = .form g ∧ g.binds ∧ as = .sym x :: rest

theorem scoping_of_not_binds {f : Tree} {as : List Tree} (h : ¬ Binds f as) :
    scoping f as = ⟨none, as, []⟩ := by
  unfold scoping
  split
  · exact absurd ⟨_, _, _, rfl, rfl, rfl⟩ h
  · exact absurd ⟨_, _, _, rfl, rfl, rfl⟩ h
  · exact absurd ⟨_, _, _, rfl, rfl, rfl⟩ h
  · rfl

theorem not_binds_of_form {f : Tree} (h : ∀ g, f = .form g → g.binds = false) (as : List Tree) :
    ¬ Binds f as := by
  rintro ⟨g, x, rest, rfl, hg, -⟩
  rw [h g rfl] at hg
  cases hg

theorem not_binds_of_sym {a : Tree} (h : ∀ x, a ≠ .sym x) (f : Tree) (as : List Tree) :
    ¬ Binds f (a :: as) := by
  rintro ⟨g, x, rest, -, -, e⟩
  exact h x (List.cons_eq_cons.mp e).1

/-- Closed operands only: nothing is bound. -/
theorem not_binds_of_closed {as : List Tree} (h : ∀ a ∈ as, Closed a) (f : Tree) :
    ¬ Binds f as := by
  rintro ⟨g, x, rest, -, -, rfl⟩
  exact (h (.sym x) (by simp)).ne_sym x rfl

theorem mem_of_mem_outside {f a : Tree} {as : List Tree} (h : a ∈ (scoping f as).outside) :
    a ∈ as := by
  unfold scoping at h
  split at h
  · exact List.mem_cons_of_mem _ (List.mem_of_mem_take h)
  · exact List.mem_cons_of_mem _ (List.mem_of_mem_drop h)
  · cases h
  · exact h

theorem mem_of_mem_inside {f a : Tree} {as : List Tree} (h : a ∈ (scoping f as).inside) :
    a ∈ as := by
  unfold scoping at h
  split at h
  · exact List.mem_cons_of_mem _ (List.mem_of_mem_drop h)
  · exact List.mem_cons_of_mem _ (List.mem_of_mem_take h)
  · exact List.mem_cons_of_mem _ h
  · cases h

/-- Every operand is the bound name itself, outside or inside. -/
theorem mem_scoping {f a : Tree} {as : List Tree} (h : a ∈ as) :
    (∃ y, a = .sym y ∧ (scoping f as).binder? = some y) ∨ a ∈ (scoping f as).outside ∨
      a ∈ (scoping f as).inside := by
  by_cases hb : Binds f as
  · obtain ⟨g, y, rest, rfl, hg, rfl⟩ := hb
    rcases List.mem_cons.mp h with rfl | h
    · left
      cases g with
      | delta | lambda | epsilon => exact ⟨y, rfl, rfl⟩
      | arrow | iota | ignore | omega => cases hg
    · right
      have hcut : a ∈ rest.take 1 ∨ a ∈ rest.drop 1 := by
        rw [← List.mem_append, List.take_append_drop]
        exact h
      cases g with
      | delta => exact hcut
      | lambda => exact hcut.symm
      | epsilon => exact .inr h
      | arrow | iota | ignore | omega => cases hg
  · rw [scoping_of_not_binds hb]
    exact .inr (.inl h)

/-- Substitution stops at a binding form whose first operand is the name. -/
theorem exists_of_shadows {x : String} {f : Tree} {as : List Tree} (h : shadows x f as) :
    ∃ g rest, f = .form g ∧ g.binds ∧ as = .sym x :: rest := by
  unfold shadows at h
  split at h
  · rename_i g y rest
    obtain ⟨hg, hy⟩ := Bool.and_eq_true_iff.mp h
    rw [beq_iff_eq] at hy
    exact ⟨g, rest, rfl, hg, by rw [hy]⟩
  · cases h

/-- Substitution stops where the name is bound. -/
theorem binder_of_shadows {x : String} {f : Tree} {as : List Tree} (h : shadows x f as) :
    (scoping f as).binder? = some x ∧ ∃ g, f = .form g := by
  obtain ⟨g, rest, rfl, hg, rfl⟩ := exists_of_shadows h
  refine ⟨?_, g, rfl⟩
  cases g with
  | delta | lambda | epsilon => rfl
  | arrow | iota | ignore | omega => cases hg

/-- Substitution makes no name of what is none. -/
theorem sym_of_substitute {x y : String} {w a : Tree} (h : substitute x w a = .sym y) :
    ∃ z, a = .sym z := by
  cases a with
  | sym z => exact ⟨z, rfl⟩
  | app f as =>
      rw [substitute_app] at h
      split at h <;> cases h
  | num | text | nil | form | host => simp [substitute, substituteLeaf] at h

/-- A scope with its operands replaced. -/
def Scoping.map (r : Tree → Tree) (s : Scoping) : Scoping :=
  ⟨s.binder?, s.outside.map r, s.inside.map r⟩

/-- Elsewhere substitution respects scopes, if what it puts in is no binding form. -/
theorem scoping_substitute {x : String} {w f : Tree} {as : List Tree} (hs : ¬ shadows x f as)
    (hw : ∀ g, w = .form g → g.binds = false) :
    scoping (substituteLeaf x w f) (as.map (substitute x w)) =
      (scoping f as).map (substitute x w) := by
  by_cases hb : Binds f as
  · obtain ⟨g, y, rest, rfl, hg, rfl⟩ := hb
    have hy : y ≠ x := by rintro rfl; exact hs (by simp [shadows, hg])
    have hleaf : substitute x w (.sym y) = .sym y := by simp [substitute, substituteLeaf, hy]
    rw [List.map_cons, hleaf]
    cases g with
    | delta | lambda | epsilon => simp [substituteLeaf, scoping, Scoping.map]
    | arrow | iota | ignore | omega => cases hg
  · rw [scoping_of_not_binds hb, scoping_of_not_binds]
    · rfl
    · rintro ⟨g, y, rest, hf, hg, has⟩
      obtain ⟨a, rest', rfl, ha, -⟩ := List.map_eq_cons_iff.mp has
      obtain ⟨z, rfl⟩ := sym_of_substitute ha
      unfold substituteLeaf at hf
      split at hf
      · split at hf
        · rw [hw g hf] at hg; cases hg
        · cases hf
      · exact hb ⟨g, z, rest', hf, hg, rfl⟩

/-! ### Deferred operands -/

/-- An operator that lacks operands of its own: further operands become its parameter, its body or
its name.  A `(δ x v c)` hands on what it is given to `c`. -/
inductive Unfinished : Tree → Prop where
  | form {g : Form} (h : g.binds) : Unfinished (.form g)
  | function {as : List Tree} (h : as.length < 2) : Unfinished (.app (.form .lambda) as)
  | external : Unfinished (.app (.form .epsilon) [])
  | define {as : List Tree} (h : as.length < 3) : Unfinished (.app (.form .delta) as)
  | body {n v c : Tree} {cs : List Tree} (h : Unfinished c) :
      Unfinished (.app (.form .delta) (n :: v :: c :: cs))
  | operator {g : Tree} {bs as : List Tree} (h : Unfinished (.app g bs)) :
      Unfinished (.app (.app g bs) as)

/-- The operands of an application that may become part of a function: the parameter and the body
of a `λ`, and what an unfinished operator is given. -/
inductive Deferred : Tree → List Tree → Tree → Prop where
  | function {as : List Tree} {b : Tree} (h : b ∈ as.take 2) : Deferred (.form .lambda) as b
  | call {n v c b : Tree} {cs : List Tree} (hc : Unfinished c) (h : b ∈ cs) :
      Deferred (.form .delta) (n :: v :: c :: cs) b
  | operand {g b : Tree} {bs as : List Tree} (hg : Unfinished (.app g bs)) (h : b ∈ as) :
      Deferred (.app g bs) as b

/-- Some application that the name `x` reaches from outside, without a binder of `x` between, is
an `H`. -/
inductive Within (x : String) (H : Tree → List Tree → Prop) : Tree → Prop where
  | here {f : Tree} {as : List Tree} (h : H f as) : Within x H (.app f as)
  | operator {f : Tree} {as : List Tree} (h : Within x H f) : Within x H (.app f as)
  | outside {f a : Tree} {as : List Tree} (ha : a ∈ (scoping f as).outside) (h : Within x H a) :
      Within x H (.app f as)
  | inside {f a : Tree} {as : List Tree} (ha : a ∈ (scoping f as).inside)
      (hx : (scoping f as).binder? ≠ some x) (h : Within x H a) : Within x H (.app f as)

/-- An application that defers a free `x`. -/
def DefersAt (x : String) (f : Tree) (as : List Tree) : Prop :=
  (scoping f as).binder? ≠ some x ∧ ∃ b, Deferred f as b ∧ Free x b

/-- An application that keeps substitution from a free `x`: outside the scope of its own binder of
`x`, or in an operator that is no leaf. -/
def StrandsAt (x : String) (f : Tree) (as : List Tree) : Prop :=
  ((scoping f as).binder? = some x ∧ ∃ a ∈ (scoping f as).outside, Free x a) ∨
    ((∀ y, f ≠ .sym y) ∧ Free x f)

/-- The name `x` occurs free in a deferred operand. -/
def Late (x : String) : Tree → Prop := Within x (DefersAt x)

/-- The name `x` occurs free where substitution does not reach it. -/
def Stranded (x : String) : Tree → Prop := Within x (StrandsAt x)

/-- No occurrence is late and stranded on account of this application: the name that it binds is
not late outside its scope, no name is late in its operator, and no name is stranded in a deferred
operand, except that the parameter of a function may be in its body. -/
structure Keeps (f : Tree) (as : List Tree) : Prop where
  outside : ∀ x, (scoping f as).binder? = some x → ∀ a ∈ (scoping f as).outside, ¬ Late x a
  operator : ∀ x, ¬ Late x f
  deferred : ∀ b, Deferred f as b → ∀ x, Stranded x b →
    f = .form .lambda ∧ (scoping f as).binder? = some x

/-- No occurrence of a name is both late and stranded. -/
def WellScoped : Tree → Prop := Nodes Keeps

theorem wellScoped_app {f : Tree} {as : List Tree} :
    WellScoped (.app f as) ↔ Keeps f as ∧ WellScoped f ∧ ∀ a ∈ as, WellScoped a := nodes_app

theorem within_app_iff {x : String} {H : Tree → List Tree → Prop} {f : Tree} {as : List Tree} :
    Within x H (.app f as) ↔ H f as ∨ Within x H f ∨ (∃ a ∈ (scoping f as).outside, Within x H a) ∨
      ((scoping f as).binder? ≠ some x ∧ ∃ a ∈ (scoping f as).inside, Within x H a) := by
  constructor
  · intro h
    cases h with
    | here h => exact .inl h
    | operator h => exact .inr (.inl h)
    | outside ha h => exact .inr (.inr (.inl ⟨_, ha, h⟩))
    | inside ha hx h => exact .inr (.inr (.inr ⟨hx, _, ha, h⟩))
  · rintro (h | h | ⟨a, ha, h⟩ | ⟨hx, a, ha, h⟩)
    · exact .here h
    · exact .operator h
    · exact .outside ha h
    · exact .inside ha hx h

theorem not_within_leaf {x : String} {H : Tree → List Tree → Prop} {t : Tree}
    (ht : ∀ f as, t ≠ .app f as) : ¬ Within x H t := by
  intro h
  cases h <;> exact ht _ _ rfl

/-- Where something about `x` is within, `x` is free. -/
theorem Within.free {x : String} {H : Tree → List Tree → Prop} {t : Tree}
    (hH : ∀ {f as}, H f as → Free x (.app f as)) (h : Within x H t) : Free x t := by
  induction h with
  | here h => exact hH h
  | operator _ ih => exact .operator ih
  | outside ha _ ih => exact .outside ha ih
  | inside ha hx _ ih => exact .inside ha hx ih

/-- An operand with `x` free, under an application that does not bind `x`. -/
theorem free_operand {x : String} {f a : Tree} {as : List Tree} (ha : a ∈ as) (h : Free x a)
    (hx : (scoping f as).binder? ≠ some x) : Free x (.app f as) := by
  rcases mem_scoping ha with ⟨y, rfl, hy⟩ | ha | ha
  · obtain rfl := free_sym_iff.mp h
    exact absurd hy hx
  · exact .outside ha h
  · exact .inside ha hx h

theorem Deferred.mem {f b : Tree} {as : List Tree} (h : Deferred f as b) : b ∈ as := by
  cases h with
  | function h => exact List.mem_of_mem_take h
  | call _ h => simp [h]
  | operand _ h => exact h

theorem DefersAt.free {x : String} {f : Tree} {as : List Tree} (h : DefersAt x f as) :
    Free x (.app f as) := by
  obtain ⟨hx, b, hb, hfree⟩ := h
  exact free_operand hb.mem hfree hx

theorem StrandsAt.free {x : String} {f : Tree} {as : List Tree} (h : StrandsAt x f as) :
    Free x (.app f as) := by
  rcases h with ⟨-, a, ha, hfree⟩ | ⟨-, hfree⟩
  · exact .outside ha hfree
  · exact .operator hfree

theorem Late.free {x : String} {t : Tree} (h : Late x t) : Free x t := Within.free DefersAt.free h

theorem Stranded.free {x : String} {t : Tree} (h : Stranded x t) : Free x t :=
  Within.free StrandsAt.free h

/-! ### Substitution -/

/-- What may be put in place of a name: a closed and well-scoped tree that lacks no operands. -/
structure Fit (w : Tree) : Prop where
  closed : Closed w
  wellScoped : WellScoped w
  finished : ¬ Unfinished w

theorem Fit.plain {w : Tree} (hw : Fit w) (g : Form) (h : w = .form g) : g.binds = false := by
  subst h
  cases hg : g.binds with
  | false => rfl
  | true => exact absurd (.form hg) hw.finished

/-- An operator is replaced if it is the name itself, and otherwise left as it is. -/
theorem substituteLeaf_cases (x : String) (w f : Tree) :
    (f = .sym x ∧ substituteLeaf x w f = w) ∨ (f ≠ .sym x ∧ substituteLeaf x w f = f) := by
  unfold substituteLeaf
  split
  · rename_i z
    by_cases hz : z = x
    · exact .inl ⟨by rw [hz], by rw [if_pos hz]⟩
    · exact .inr ⟨by simpa using hz, by rw [if_neg hz]⟩
  · rename_i hsym
    exact .inr ⟨hsym x, rfl⟩

section

variable {x y : String} {w : Tree} (hw : Fit w)
include hw

/-- An operator that is a form afterwards, and binds, was that form before. -/
theorem form_of_substituteLeaf {f : Tree} {g : Form} (hg : g.binds)
    (h : substituteLeaf x w f = .form g) : f = .form g := by
  rcases substituteLeaf_cases x w f with ⟨-, e⟩ | ⟨-, e⟩
  · rw [hw.plain g (e ▸ h)] at hg
    cases hg
  · exact e ▸ h

/-- An operator that is unfinished afterwards was not replaced. -/
theorem unfinished_of_substituteLeaf {f : Tree} (h : Unfinished (substituteLeaf x w f)) :
    substituteLeaf x w f = f := by
  rcases substituteLeaf_cases x w f with ⟨-, e⟩ | ⟨-, e⟩
  · exact absurd (e ▸ h) hw.finished
  · exact e

theorem unfinished_of_substitute {c : Tree} (h : Unfinished (substitute x w c)) : Unfinished c := by
  induction c using byApp with
  | leaf c hc =>
      rw [substitute_leaf hc] at h
      rwa [unfinished_of_substituteLeaf hw h] at h
  | app f as _ ih =>
      rw [substitute_app] at h
      split at h
      · exact h
      · -- What is put in is finished, so the operator is what it was before.
        generalize hf : substituteLeaf x w f = f' at h
        generalize has : as.map (substitute x w) = as' at h
        cases h with
        | function h =>
            obtain rfl := form_of_substituteLeaf hw rfl hf
            exact .function (by simpa [← has] using h)
        | external =>
            obtain rfl := form_of_substituteLeaf hw rfl hf
            obtain rfl := List.map_eq_nil_iff.mp has
            exact .external
        | define h =>
            obtain rfl := form_of_substituteLeaf hw rfl hf
            exact .define (by simpa [← has] using h)
        | body h =>
            obtain rfl := form_of_substituteLeaf hw rfl hf
            obtain ⟨n, as, rfl, -, has⟩ := List.map_eq_cons_iff.mp has
            obtain ⟨v, as, rfl, -, has⟩ := List.map_eq_cons_iff.mp has
            obtain ⟨c, as, rfl, rfl, -⟩ := List.map_eq_cons_iff.mp has
            exact .body (ih c (by simp) h)
        | operator h =>
            have hself := unfinished_of_substituteLeaf hw (x := x) (f := f) (by rw [hf]; exact h)
            rw [hself] at hf
            subst hf
            exact .operator h

/-- Substitution defers nothing anew. -/
theorem deferred_of_substitute {f b : Tree} {as : List Tree}
    (h : Deferred (substituteLeaf x w f) (as.map (substitute x w)) b) :
    ∃ a, Deferred f as a ∧ b = substitute x w a := by
  generalize hf : substituteLeaf x w f = f' at h
  generalize has : as.map (substitute x w) = as' at h
  cases h with
  | function h =>
      obtain rfl := form_of_substituteLeaf hw rfl hf
      rw [← has, ← List.map_take] at h
      obtain ⟨a, ha, rfl⟩ := List.mem_map.mp h
      exact ⟨a, .function ha, rfl⟩
  | call hc h =>
      obtain rfl := form_of_substituteLeaf hw rfl hf
      obtain ⟨n, as, rfl, -, has⟩ := List.map_eq_cons_iff.mp has
      obtain ⟨v, as, rfl, -, has⟩ := List.map_eq_cons_iff.mp has
      obtain ⟨c, as, rfl, rfl, rfl⟩ := List.map_eq_cons_iff.mp has
      obtain ⟨a, ha, rfl⟩ := List.mem_map.mp h
      exact ⟨a, .call (unfinished_of_substitute hw hc) ha, rfl⟩
  | operand hg h =>
      have hself := unfinished_of_substituteLeaf hw (x := x) (f := f) (by rw [hf]; exact hg)
      rw [hself] at hf
      subst hf
      obtain ⟨a, ha, rfl⟩ := List.mem_map.mp (has ▸ h)
      exact ⟨a, .operand hg ha, rfl⟩

/-- What is free in an operator after a substitution was free in it before; the name itself only if
the operator is no name. -/
theorem free_substituteLeaf {f : Tree} (h : Free y (substituteLeaf x w f)) :
    Free y f ∧ (y = x → ∀ z, f ≠ .sym z) := by
  rcases substituteLeaf_cases x w f with ⟨-, e⟩ | ⟨hne, e⟩
  · rw [e] at h
    exact absurd h (hw.closed y)
  · rw [e] at h
    refine ⟨h, ?_⟩
    rintro rfl z rfl
    obtain rfl := free_sym_iff.mp h
    exact hne rfl

/-- **What a substitution leaves free was free**, and the name itself was stranded. -/
theorem free_substitute {t : Tree} (h : Free y (substitute x w t)) :
    Free y t ∧ (y = x → Stranded x t) := by
  induction t using byApp with
  | leaf t hleaf =>
      rw [substitute_leaf hleaf] at h
      obtain ⟨hfree, hsym⟩ := free_substituteLeaf hw h
      refine ⟨hfree, fun e => ?_⟩
      exact absurd hfree (closed_leaf (hsym e) hleaf y)
  | app f as _ ih =>
      by_cases hs : shadows x f as
      · -- A binder of `x`: nothing was replaced, and a free `x` can only be outside its scope.
        rw [substitute_app, if_pos hs] at h
        refine ⟨h, ?_⟩
        rintro rfl
        obtain ⟨hb, g, rfl⟩ := binder_of_shadows hs
        rcases free_app_iff.mp h with hf | ⟨a, ha, hfree⟩ | ⟨hne, -⟩
        · cases hf
        · exact .here (.inl ⟨hb, a, ha, hfree⟩)
        · exact absurd hb hne
      · rw [substitute_app, if_neg hs] at h
        rw [free_app_iff, scoping_substitute hs hw.plain] at h
        rcases h with h | ⟨b, hb, h⟩ | ⟨hne, b, hb, h⟩
        · obtain ⟨hfree, hsym⟩ := free_substituteLeaf hw h
          exact ⟨.operator hfree, fun e => .here (.inr ⟨hsym e, e ▸ hfree⟩)⟩
        · obtain ⟨a, ha, rfl⟩ := List.mem_map.mp hb
          obtain ⟨hfree, hyx⟩ := ih a (mem_of_mem_outside ha) h
          exact ⟨.outside ha hfree, fun e => .outside ha (hyx e)⟩
        · obtain ⟨a, ha, rfl⟩ := List.mem_map.mp hb
          obtain ⟨hfree, hyx⟩ := ih a (mem_of_mem_inside ha) h
          exact ⟨.inside ha hne hfree, fun e => .inside ha (e ▸ hne) (hyx e)⟩

/-- What is within an operator after a substitution was within it before. -/
theorem within_of_substituteLeaf {H : Tree → List Tree → Prop} {t : Tree}
    (hH : ∀ {f as}, H f as → Free y (.app f as)) (h : Within y H (substituteLeaf x w t)) :
    Within y H t := by
  rcases substituteLeaf_cases x w t with ⟨-, e⟩ | ⟨-, e⟩
  · rw [e] at h
    exact absurd (h.free hH) (hw.closed y)
  · rwa [e] at h

/-- What is within a tree after a substitution was within it before, if one application tells so. -/
theorem within_of_substitute {H : Tree → List Tree → Prop} {t : Tree}
    (hH : ∀ {f as}, H f as → Free y (.app f as))
    (hstep : ∀ {f as}, ¬ shadows x f as →
      H (substituteLeaf x w f) (as.map (substitute x w)) → H f as)
    (h : Within y H (substitute x w t)) : Within y H t := by
  induction t using byApp with
  | leaf t hleaf =>
      rw [substitute_leaf hleaf] at h
      exact within_of_substituteLeaf hw hH h
  | app f as _ ih =>
      by_cases hs : shadows x f as
      · rwa [substitute_app, if_pos hs] at h
      · rw [substitute_app, if_neg hs] at h
        rw [within_app_iff, scoping_substitute hs hw.plain] at h
        rcases h with h | h | ⟨b, hb, h⟩ | ⟨hne, b, hb, h⟩
        · exact .here (hstep hs h)
        · exact .operator (within_of_substituteLeaf hw hH h)
        · obtain ⟨a, ha, rfl⟩ := List.mem_map.mp hb
          exact .outside ha (ih a (mem_of_mem_outside ha) h)
        · obtain ⟨a, ha, rfl⟩ := List.mem_map.mp hb
          exact .inside ha hne (ih a (mem_of_mem_inside ha) h)

theorem late_of_substitute {t : Tree} (h : Late y (substitute x w t)) : Late y t := by
  refine within_of_substitute hw DefersAt.free ?_ h
  rintro f as hs ⟨hne, b, hb, hfree⟩
  rw [scoping_substitute hs hw.plain] at hne
  obtain ⟨a, ha, rfl⟩ := deferred_of_substitute hw hb
  exact ⟨hne, a, ha, (free_substitute hw hfree).1⟩

theorem stranded_of_substitute {t : Tree} (h : Stranded y (substitute x w t)) : Stranded y t := by
  refine within_of_substitute hw StrandsAt.free ?_ h
  rintro f as hs (⟨hbinder, b, hb, hfree⟩ | ⟨hsym, hfree⟩)
  · rw [scoping_substitute hs hw.plain] at hbinder hb
    obtain ⟨a, ha, rfl⟩ := List.mem_map.mp hb
    exact .inl ⟨hbinder, a, ha, (free_substitute hw hfree).1⟩
  · rcases substituteLeaf_cases x w f with ⟨-, e⟩ | ⟨-, e⟩
    · rw [e] at hfree
      exact absurd hfree (hw.closed y)
    · rw [e] at hsym hfree
      exact .inr ⟨hsym, hfree⟩

/-- **What a substitution leaves of its name comes in time.** -/
theorem not_late_substitute {t : Tree} (ht : WellScoped t) : ¬ Late x (substitute x w t) := by
  induction t using byApp with
  | leaf t hleaf =>
      intro h
      rw [substitute_leaf hleaf] at h
      exact not_within_leaf hleaf (within_of_substituteLeaf hw DefersAt.free h)
  | app f as _ ih =>
      obtain ⟨hkeeps, -, has⟩ := wellScoped_app.mp ht
      intro h
      by_cases hs : shadows x f as
      · rw [substitute_app, if_pos hs] at h
        obtain ⟨hb, g, rfl⟩ := binder_of_shadows hs
        rcases within_app_iff.mp h with ⟨hne, -⟩ | h | ⟨a, ha, h⟩ | ⟨hne, -⟩
        · exact hne hb
        · exact hkeeps.operator x h
        · exact hkeeps.outside x hb a ha h
        · exact hne hb
      · rw [substitute_app, if_neg hs] at h
        unfold Late at h
        rw [within_app_iff, scoping_substitute hs hw.plain] at h
        rcases h with ⟨hne, b, hb, hfree⟩ | h | ⟨b, hb, h⟩ | ⟨-, b, hb, h⟩
        · -- Left free, so stranded; in a deferred operand only the bound name may be.
          rw [scoping_substitute hs hw.plain] at hne
          obtain ⟨a, ha, rfl⟩ := deferred_of_substitute hw hb
          exact hne (hkeeps.deferred a ha x ((free_substitute hw hfree).2 rfl)).2
        · exact hkeeps.operator x (within_of_substituteLeaf hw DefersAt.free h)
        · obtain ⟨a, ha, rfl⟩ := List.mem_map.mp hb
          have hm := mem_of_mem_outside ha
          exact ih a hm (has a hm) h
        · obtain ⟨a, ha, rfl⟩ := List.mem_map.mp hb
          have hm := mem_of_mem_inside ha
          exact ih a hm (has a hm) h

theorem keeps_substitute {f : Tree} {as : List Tree} (hkeeps : Keeps f as) (hs : ¬ shadows x f as) :
    Keeps (substituteLeaf x w f) (as.map (substitute x w)) := by
  constructor
  · intro y hy b hb hlate
    rw [scoping_substitute hs hw.plain] at hy hb
    obtain ⟨a, ha, rfl⟩ := List.mem_map.mp hb
    exact hkeeps.outside y hy a ha (late_of_substitute hw hlate)
  · intro y hlate
    exact hkeeps.operator y (within_of_substituteLeaf hw DefersAt.free hlate)
  · intro b hb y hstranded
    obtain ⟨a, ha, rfl⟩ := deferred_of_substitute hw hb
    obtain ⟨rfl, hbinder⟩ := hkeeps.deferred a ha y (stranded_of_substitute hw hstranded)
    rw [scoping_substitute hs hw.plain]
    exact ⟨rfl, hbinder⟩

/-- **Substitution keeps trees well-scoped.** -/
theorem wellScoped_substitute {t : Tree} (ht : WellScoped t) : WellScoped (substitute x w t) := by
  have leaf : ∀ {f : Tree}, WellScoped f → WellScoped (substituteLeaf x w f) := by
    intro f hf
    rcases substituteLeaf_cases x w f with ⟨-, e⟩ | ⟨-, e⟩
    · rw [e]; exact hw.wellScoped
    · rwa [e]
  induction t using byApp with
  | leaf t hleaf =>
      rw [substitute_leaf hleaf]
      exact leaf ht
  | app f as _ ih =>
      rw [substitute_app]
      split
      · exact ht
      · rename_i hs
        obtain ⟨hkeeps, hf, has⟩ := wellScoped_app.mp ht
        refine wellScoped_app.mpr ⟨keeps_substitute hw hkeeps hs, leaf hf, fun b hb => ?_⟩
        obtain ⟨a, ha, rfl⟩ := List.mem_map.mp hb
        exact ih a ha (has a ha)

end

end Tree

end Curried
