import Curried.Proofs.Capture
import Curried.Proofs.Reading

/-!
# Proofs — evaluation without frames

`calculate` reduces a tree by the rules of evaluation and has no stack: `δ` and `λ` bind by
substitution only, and a name that is met is a name that is not bound.

The frames of `evaluate` make no difference to a tree in which substitution alone finds every name.
`Tree.Pure` is that: the tree is closed, no binder's name is free outside the binder's scope, and an
operator that is an application is closed by itself.  Then nothing is stranded, and a substitution
leaves nothing of its name free, so every tree that is evaluated on the way is closed again
(`Tree.invariant_pure`).  Two evaluators that never meet a name run in step
(`Invariant.calculate`), and so they have the same outcome (`hybrid_is_substitution`).
-/

namespace Curried

/-- Goes on with a value. -/
def Outcome.andThen (o : Outcome) (next : Tree → Outcome) : Outcome :=
  match o with
  | .value v => next v
  | .fault f => .fault f
  | .tooDeep => .tooDeep

namespace Outcome

theorem andThen_assoc (o : Outcome) (next next' : Tree → Outcome) :
    (o.andThen next).andThen next' = o.andThen fun v => (next v).andThen next' := by
  cases o <;> rfl

theorem andThen_value (o : Outcome) : o.andThen .value = o := by
  cases o <;> rfl

end Outcome

/-- The outcome of a run that goes on. -/
theorem Run.outcome_andThen (r : Run) (next : Stack → Tree → Run) :
    (r.andThen next).outcome = r.outcome.andThen fun v => (next r.stack v).outcome := by
  obtain ⟨_ | _ | _, stack, log⟩ := r <;> rfl

/-- Reduces a tree. -/
abbrev Calculator := Tree → Outcome

namespace Calculation

/-- Reduces an operator and applies the value. -/
def applyTo (inner : Calculator) (operator : Tree) (operands : List Tree) : Outcome :=
  (inner operator).andThen fun f => inner (.app f operands)

/-- `(δ x v b)` reduces `b` with the value of `v` in place of `x`, and `(δ x v f a …)` reduces
`(f a …)` so. -/
def define (inner : Calculator) : List Tree → Outcome
  | .sym x :: v :: body :: rest =>
    (inner v).andThen fun v =>
      match rest with
      | [] => inner (Tree.substitute x v body)
      | _ => inner (.app (Tree.substitute x v body) (Tree.substituteAll x v rest))
  | name :: _ :: _ :: _ => .fault (.showing [name] (.badName name))
  | operands => .fault (.defineArity operands.length)

/-- Gives a function with this parameter and body its argument. -/
def call (inner : Calculator) (parameter body argument : Tree) : Outcome :=
  match parameter with
  | .sym x => (inner argument).andThen fun v => inner (Tree.substitute x v body)
  | .form .ignore => (inner argument).andThen fun _ => inner body
  | _ =>
    if parameter.isLiteral then
      (inner argument).andThen fun actual =>
        if parameter.accepts actual then inner body
        else .fault (.showing [parameter, actual] (.mismatch parameter actual))
    else .fault (.showing [parameter] (.badParameter parameter))

/-- `(λ p b)` is its own value; further operands are its arguments. -/
def function (inner : Calculator) : List Tree → Outcome
  | [parameter, body] => .value (.app (.form .lambda) [parameter, body])
  | parameter :: body :: argument :: rest =>
    (call inner parameter body argument).andThen fun result =>
      match rest with
      | [] => .value result
      | _ => inner (.app result rest)
  | operands => .fault (.functionArity operands.length)

/-- `(ι)` is its own value, `(ι x)` is `x`, and `(ι f a …)` applies `f`. -/
def identity (inner : Calculator) : List Tree → Outcome
  | [] => .value (.app (.form .iota) [])
  | [x] => inner x
  | f :: operands => applyTo inner f operands

/-- `(_)` is the bare form, `(_ x)` and `(_ x y)` are nil, and `(_ x f a …)` applies `f`. -/
def ignore (inner : Calculator) : List Tree → Outcome
  | [] => .value (.form .ignore)
  | [_] | [_, _] => .value .nil
  | _ :: f :: operands => applyTo inner f operands

/-- The rule of a form. -/
def dispatch (inner : Calculator) (form : Form) (operands : List Tree) : Outcome :=
  match form with
  | .delta => define inner operands
  | .lambda => function inner operands
  | .arrow => .fault .reservedArrow
  | .epsilon => .fault .reservedExternal
  | .iota => identity inner operands
  | .ignore => ignore inner operands
  | .omega => .value .nil

/-- One reduction, with `inner` for those inside it.  A name stands for nothing. -/
def reduce (inner : Calculator) : Tree → Outcome
  | .sym x => .fault (.unbound x)
  | .form f => .fault (.bareForm f)
  | .host .absent => .fault .noValue
  | .app (.form f) as => dispatch inner f as
  | .app (.app f as) bs => inner ((Tree.app f as).apply bs)
  | .app (.sym x) as => (inner (.sym x)).andThen fun head => inner (Evaluation.rebuild head as)
  | .app f _ => .fault (.showing [f] (.notFunction f))
  | literal => .value literal

end Calculation

/-- Reduces a tree without frames, with at most `limit` reductions inside each other. -/
def calculate : Nat → Calculator
  | 0 => fun _ => .tooDeep
  | limit + 1 => Calculation.reduce (calculate limit)

/-! ### In step -/

/-- Going on in step: from the same outcome, and from every `V` to the same outcome again. -/
theorem Run.Good.outcome_andThen {G : Stack → Tree → Prop} {V : Tree → Prop} {r : Run} {o : Outcome}
    {next : Stack → Tree → Run} {next' : Tree → Outcome} (hr : r.Good G V) (ho : r.outcome = o)
    (hn : ∀ v, V v → (next r.stack v).outcome = next' v) :
    (r.andThen next).outcome = o.andThen next' := by
  obtain ⟨outcome, stack, log⟩ := r
  subst ho
  cases outcome with
  | value v => exact hn v hr
  | fault f => rfl
  | tooDeep => rfl

namespace Invariant

variable {G V : Tree → Prop} (inv : Invariant (fun _ => G) V) {eval : Evaluator}
  {inner : Calculator} (hr : eval.Restores)
  (hg : ∀ {stack t}, G t → (eval stack t).Good (fun _ => G) V)
  (he : ∀ {stack t}, G t → (eval stack t).outcome = inner t)
include inv hg he

theorem calculate_applyTo (stack : Stack) {f : Tree} {as : List Tree} (hf : G f)
    (has : ∀ a ∈ as, G a) :
    (Evaluation.applyTo eval stack f as).outcome = Calculation.applyTo inner f as :=
  (hg hf).outcome_andThen (he hf) fun _ hv => he (inv.applied (s := stack) hf hv has)

theorem calculate_define (stack : Stack) {as : List Tree} (ht : G (.app (.form .delta) as)) :
    (Evaluation.define eval stack as).outcome = Calculation.define inner as := by
  unfold Evaluation.define
  split
  · rename_i x v body rest
    have hdefined : G v := inv.definedValue (s := stack) ht
    rw [Calculation.define]
    refine (hg hdefined).outcome_andThen (he hdefined) fun w hw => ?_
    cases rest with
    | nil => exact he (inv.definedBody (s := stack) ht hw)
    | cons c cs => exact he (inv.definedCall (s := stack) ht (by simp) hw)
  · rename_i hname
    rw [Calculation.define]
    · rfl
    · exact hname
  · rename_i hname hlength
    rw [Calculation.define]
    · rfl
    · exact hname
    · exact hlength

theorem calculate_call (stack : Stack) {p b a : Tree} {as : List Tree}
    (ht : G (.app (.form .lambda) (p :: b :: a :: as))) :
    (Evaluation.call eval stack p b a).outcome = Calculation.call inner p b a := by
  have ha : G a := inv.argument (s := stack) ht (by simp)
  unfold Evaluation.call
  split
  · rw [Calculation.call]
    exact (hg ha).outcome_andThen (he ha) fun w hw => he (inv.boundBody (s := stack) ht hw)
  · have hb : G b := inv.plainBody (s := stack) ht (by simp)
    rw [Calculation.call]
    exact (hg ha).outcome_andThen (he ha) fun _ _ => he hb
  · rename_i hsym hignore
    have hb : G b := inv.plainBody (s := stack) ht hsym
    rw [Calculation.call]
    · split
      · refine (hg ha).outcome_andThen (he ha) fun actual _ => ?_
        split
        · exact he hb
        · rfl
      · rfl
    · exact hsym
    · exact hignore

include hr

theorem calculate_function (stack : Stack) {as : List Tree} (ht : G (.app (.form .lambda) as)) :
    (Evaluation.function eval stack as).outcome = Calculation.function inner as := by
  unfold Evaluation.function
  split
  · rfl
  · rename_i p b a rest
    rw [Calculation.function]
    have hcall : (Evaluation.call eval stack p b a).Good (fun _ => G) V :=
      inv.call hr (fun ht => hg ht) ht
    refine hcall.outcome_andThen (inv.calculate_call hg he stack ht) fun v hv => ?_
    cases rest with
    | nil => rfl
    | cons c cs =>
        refine he (inv.applied (s := stack) ht hv fun d hd => ?_)
        exact inv.argument (s := stack) ht (List.mem_cons_of_mem a hd)
  · rename_i hpair hmore
    rw [Calculation.function]
    · rfl
    · exact hpair
    · exact hmore

theorem calculate_dispatch (stack : Stack) {f : Form} {as : List Tree}
    (ht : G (.app (.form f) as)) :
    (Evaluation.dispatch eval stack f as).outcome = Calculation.dispatch inner f as := by
  have operand : f.binds = false → ∀ a ∈ as, G a := fun hf a ha =>
    inv.operand (s := stack) ht (by simp) (fun g e => by cases e; exact hf) ha
  cases f with
  | delta => exact inv.calculate_define hg he stack ht
  | lambda => exact inv.calculate_function hr hg he stack ht
  | arrow | epsilon | omega => rfl
  | iota =>
      have has := operand rfl
      match as, has with
      | [], _ => rfl
      | [x], has => exact he (has x (by simp))
      | f :: a :: as, has =>
          exact inv.calculate_applyTo hg he stack (has f (by simp))
            fun b hb => has b (List.mem_cons_of_mem f hb)
  | ignore =>
      have has := operand rfl
      match as, has with
      | [], _ | [_], _ | [_, _], _ => rfl
      | x :: f :: a :: as, has =>
          exact inv.calculate_applyTo hg he stack (has f (by simp))
            fun b hb => has b (by simp only [List.mem_cons] at hb ⊢; tauto)

/-- **One reduction runs in step** if the reductions inside it do, and no name is met. -/
theorem calculate_reduce (hname : ∀ x, ¬ G (.sym x)) (stack : Stack) {t : Tree} (ht : G t) :
    (Evaluation.reduce eval stack t).outcome = Calculation.reduce inner t := by
  cases t with
  | sym x => exact absurd ht (hname x)
  | num | text | nil | form => rfl
  | host h => cases h <;> rfl
  | app f as =>
      cases f with
      | form f => exact inv.calculate_dispatch hr hg he stack ht
      | app f bs => exact he (inv.spliced (s := stack) ht)
      | sym x => exact absurd (inv.operator (s := stack) ht (by simp)) (hname x)
      | num | text | nil | host => rfl

omit hr hg he in
/-- **The two evaluators run in step** on the trees of an invariant that has no names. -/
theorem calculate (hname : ∀ x, ¬ G (.sym x)) (limit : Nat) {stack : Stack} {t : Tree}
    (ht : G t) : (Curried.evaluate limit stack t).outcome = Curried.calculate limit t := by
  induction limit generalizing stack t with
  | zero => rfl
  | succ limit ih =>
      have hgood : ∀ {stack t}, G t → (Curried.evaluate limit stack t).Good (fun _ => G) V :=
        fun ht => inv.evaluate limit ht
      exact inv.calculate_reduce (restores_evaluate limit) hgood (fun ht => ih ht) hname stack ht

end Invariant

/-! ### Pure trees -/

namespace Tree

/-- The name that this application binds is not free outside its scope. -/
def SeparatesAt (f : Tree) (as : List Tree) : Prop :=
  ∀ x, (scoping f as).binder? = some x → ∀ a ∈ (scoping f as).outside, ¬ Free x a

/-- No binder's name is free outside the binder's scope. -/
def Separate : Tree → Prop := Nodes SeparatesAt

/-- Nothing in this application is out of the reach of substitution: its name is not free outside
its scope, and an operator that is an application is closed. -/
structure Exposes (f : Tree) (as : List Tree) : Prop where
  outside : SeparatesAt f as
  operator : ∀ g bs, f = .app g bs → Closed f

/-- Nothing is out of the reach of substitution. -/
def Exposed : Tree → Prop := Nodes Exposes

theorem exposed_app {f : Tree} {as : List Tree} :
    Exposed (.app f as) ↔ Exposes f as ∧ Exposed f ∧ ∀ a ∈ as, Exposed a := nodes_app

/-- In a flat tree it is enough that no binder's name is free outside its scope. -/
theorem Separate.exposed {t : Tree} (h : Separate t) (hflat : Flat t) : Exposed t := by
  induction t using byApp with
  | leaf t hleaf => exact nodes_leaf hleaf
  | app f as ihf ihas =>
      obtain ⟨hsep, hf, has⟩ := nodes_app.mp h
      obtain ⟨hop, hflatf, hflats⟩ := nodes_app.mp hflat
      refine exposed_app.mpr ⟨⟨hsep, ?_⟩, ihf hf hflatf,
        fun a ha => ihas a ha (has a ha) (hflats a ha)⟩
      rintro g bs rfl
      rcases hop with ⟨x, hx⟩ | ⟨g, hg⟩
      · cases hx
      · cases hg

/-- Where nothing is out of reach, nothing is stranded. -/
theorem Exposed.not_stranded {x : String} {t : Tree} (h : Exposed t) : ¬ Stranded x t := by
  intro hs
  induction hs with
  | @here f as hstrands =>
      obtain ⟨hexposes, -, -⟩ := exposed_app.mp h
      rcases hstrands with ⟨hx, a, ha, hfree⟩ | ⟨hsym, hfree⟩
      · exact hexposes.outside x hx a ha hfree
      · cases f with
        | sym y => exact hsym y rfl
        | app g bs => exact hexposes.operator g bs rfl x hfree
        | num | text | nil | form | host => cases hfree
  | operator _ ih => exact ih (exposed_app.mp h).2.1
  | outside ha _ ih => exact ih ((exposed_app.mp h).2.2 _ (mem_of_mem_outside ha))
  | inside ha _ _ ih => exact ih ((exposed_app.mp h).2.2 _ (mem_of_mem_inside ha))

theorem Exposed.wellScoped {t : Tree} (h : Exposed t) : WellScoped t := by
  induction t using byApp with
  | leaf t hleaf => exact nodes_leaf hleaf
  | app f as ihf ihas =>
      obtain ⟨hexposes, hf, has⟩ := exposed_app.mp h
      refine wellScoped_app.mpr ⟨⟨?_, ?_, ?_⟩, ihf hf, fun a ha => ihas a ha (has a ha)⟩
      · intro x hx a ha hlate
        exact hexposes.outside x hx a ha hlate.free
      · intro x hlate
        by_cases happ : ∃ g bs, f = .app g bs
        · obtain ⟨g, bs, rfl⟩ := happ
          exact hexposes.operator g bs rfl x hlate.free
        · exact not_within_leaf (fun g bs e => happ ⟨g, bs, e⟩) hlate
      · intro b hb x hx
        exact absurd hx (has b hb.mem).not_stranded

/-- A tree whose names substitution alone will find: it is closed, and nothing is out of reach. -/
structure Pure (t : Tree) : Prop where
  closed : Closed t
  exposed : Exposed t

/-- A pure tree that lacks no operands. -/
def PureValue (v : Tree) : Prop := Pure v ∧ ¬ Unfinished v

theorem PureValue.fit {v : Tree} (h : PureValue v) : Fit v :=
  ⟨h.1.closed, h.1.exposed.wellScoped, h.2⟩

theorem pureValue_leaf {t : Tree} (hsym : ∀ x, t ≠ .sym x) (happ : ∀ f as, t ≠ .app f as)
    (hform : ∀ g, t = .form g → g.binds = false) : PureValue t :=
  ⟨⟨closed_leaf hsym happ, nodes_leaf happ⟩, (fit_leaf hsym happ hform).finished⟩

section

variable {x : String} {w : Tree} (hw : PureValue w)
include hw

/-- **A substitution leaves nothing of its name free.** -/
theorem Exposed.free_substitute {y : String} {t : Tree} (ht : Exposed t)
    (h : Free y (substitute x w t)) : Free y t ∧ y ≠ x := by
  obtain ⟨hfree, hstranded⟩ := Tree.free_substitute hw.fit h
  exact ⟨hfree, fun e => ht.not_stranded (hstranded e)⟩

/-- **Substitution puts nothing out of reach.** -/
theorem Exposed.substitute {t : Tree} (ht : Exposed t) : Exposed (substitute x w t) := by
  induction t using byApp with
  | leaf t hleaf =>
      rw [substitute_leaf hleaf]
      rcases substituteLeaf_cases x w t with ⟨-, e⟩ | ⟨-, e⟩
      · rw [e]; exact hw.1.exposed
      · rwa [e]
  | app f as _ ih =>
      obtain ⟨hexposes, hf, has⟩ := exposed_app.mp ht
      rw [substitute_app]
      split
      · exact ht
      · rename_i hs
        -- The value may come to stand in operator position, where it is closed.
        have hoperator : Exposed (substituteLeaf x w f) ∧
            ∀ g bs, substituteLeaf x w f = .app g bs → Closed (substituteLeaf x w f) := by
          rcases substituteLeaf_cases x w f with ⟨-, e⟩ | ⟨-, e⟩
          · rw [e]
            exact ⟨hw.1.exposed, fun _ _ _ => hw.1.closed⟩
          · rw [e]
            exact ⟨hf, hexposes.operator⟩
        refine exposed_app.mpr ⟨⟨?_, hoperator.2⟩, hoperator.1, ?_⟩
        · intro y hy b hb hfree
          rw [scoping_substitute hs hw.fit.plain] at hy hb
          obtain ⟨a, ha, rfl⟩ := List.mem_map.mp hb
          have hexposed : Exposed a := has a (mem_of_mem_outside ha)
          exact hexposes.outside y hy a ha (hexposed.free_substitute hw hfree).1
        · intro b hb
          obtain ⟨a, ha, rfl⟩ := List.mem_map.mp hb
          exact ih a ha (has a ha)

end

namespace Pure

variable {f a : Tree} {as : List Tree}

theorem outside (h : Pure (.app f as)) (ha : a ∈ (scoping f as).outside) : Pure a :=
  ⟨fun x hx => h.closed x (.outside ha hx),
    (exposed_app.mp h.exposed).2.2 a (mem_of_mem_outside ha)⟩

/-- The operands where nothing is bound. -/
theorem operand (h : Pure (.app f as)) (hb : ¬ Binds f as) (ha : a ∈ as) : Pure a :=
  h.outside (by rwa [scoping_of_not_binds hb])

theorem operator (h : Pure (.app f as)) : Pure f :=
  ⟨fun x hx => h.closed x (.operator hx), (exposed_app.mp h.exposed).2.1⟩

/-- **The operands in a scope**, with a value in place of the name. -/
theorem inside {x : String} {w : Tree} (h : Pure (.app f as))
    (hx : (scoping f as).binder? = some x) (ha : a ∈ (scoping f as).inside) (hw : PureValue w) :
    Pure (substitute x w a) := by
  have hexposed : Exposed a := (exposed_app.mp h.exposed).2.2 a (mem_of_mem_inside ha)
  refine ⟨fun y hy => ?_, hexposed.substitute hw⟩
  obtain ⟨hfree, hne⟩ := hexposed.free_substitute hw hy
  refine h.closed y (.inside ha (fun e => hne ?_) hfree)
  exact Option.some.inj (e ▸ hx)

/-- **More operands at the end.** -/
theorem append {bs : List Tree} (h : Pure (.app f as)) (hbs : ∀ b ∈ bs, Pure b) :
    Pure (.app f (as ++ bs)) := by
  -- The new operands may fall under a binder that lacked them; they have no name for it to bind.
  have hclosed : Unfinished (.app f as) → ∀ b ∈ bs, Closed b := fun _ b hb => (hbs b hb).closed
  obtain ⟨hexposes, hf, has⟩ := exposed_app.mp h.exposed
  obtain ⟨hbinder, hout, -⟩ := scoping_append hclosed
  refine ⟨fun x hx => ?_, exposed_app.mpr ⟨⟨fun x hx a ha => ?_, hexposes.operator⟩, hf, ?_⟩⟩
  · rcases free_append hclosed hx with hx | ⟨b, hb, hx⟩
    · exact h.closed x hx
    · exact (hbs b hb).closed x hx
  · rcases hout a ha with ha | ha
    · exact hexposes.outside x (hbinder ▸ hx) a ha
    · exact (hbs a ha).closed x
  · exact fun a ha => (List.mem_append.mp ha).elim (has a) fun ha => (hbs a ha).exposed

/-- **An operator with operands.** -/
theorem app (hf : Pure f) (has : ∀ a ∈ as, Pure a) : Pure (.app f as) := by
  have hb : ¬ Binds f as := not_binds_of_closed (fun a ha => (has a ha).closed) f
  have hscoping := scoping_of_not_binds hb
  refine ⟨fun x hx => ?_, exposed_app.mpr ⟨⟨fun x hx => ?_, fun _ _ _ => hf.closed⟩, hf.exposed,
    fun a ha => (has a ha).exposed⟩⟩
  · rw [free_app_iff, hscoping] at hx
    rcases hx with hx | ⟨a, ha, hx⟩ | ⟨-, a, ha, -⟩
    · exact hf.closed x hx
    · exact (has a ha).closed x hx
    · cases ha
  · rw [hscoping] at hx
    cases hx

theorem rebuilt {v : Tree} (hv : Pure v) (has : ∀ a ∈ as, Pure a) :
    Pure (Evaluation.rebuild v as) := by
  unfold Evaluation.rebuild
  split
  · exact hv.append has
  · exact hv.app has

/-- Splicing an operator gives it more operands, again and again. -/
theorem spliced (h : Pure (.app f as)) : Pure (f.apply as) := by
  fun_induction apply f as with
  | case1 g bs as ih =>
      refine ih (h.operator.append fun b hb => ?_)
      exact h.operand (not_binds_of_form (by simp) as) hb
  | case2 f as _ => exact h

end Pure

/-- **Evaluation leads from pure trees to pure trees.** -/
theorem invariant_pure : Invariant (fun _ => Pure) PureValue where
  tree _ hv := hv.1
  bound {_ x _} h _ := absurd .name (h.closed x)
  leaf _ hsym hform happ _ := pureValue_leaf hsym happ fun g e => absurd e (hform g)
  nil := pureValue_leaf (by simp) (by simp) (by simp)
  ignore _ := pureValue_leaf (by simp) (by simp) (by simp [Form.binds])
  iota := by
    have hiota : Pure (.form .iota) := (pureValue_leaf (by simp) (by simp) (by simp [Form.binds])).1
    exact ⟨hiota.app (by simp), fun hu => by cases hu⟩
  function h := ⟨h, fun hu => by
    cases hu with
    | function hlength => simp at hlength⟩
  operator h _ := h.operator
  operand h _ hf ha := h.operand (not_binds_of_form hf _) ha
  definedName h hn := h.operand (not_binds_of_sym hn _ _) (by simp)
  definedValue h := h.outside (by simp [scoping])
  definedBody h hw := h.inside rfl (List.mem_singleton_self _) hw
  definedCall {s x v c cs w} h _ hw := by
    have hin : ∀ a ∈ c :: cs, Pure (substitute x w a) := fun a ha => h.inside rfl ha hw
    refine (hin c (by simp)).app fun b hb => ?_
    rw [substituteAll_eq_map] at hb
    obtain ⟨a, ha, rfl⟩ := List.mem_map.mp hb
    exact hin a (by simp [ha])
  argument {_ p b as a} h ha := by
    by_cases hp : ∃ x, p = .sym x
    · obtain ⟨x, rfl⟩ := hp
      exact h.outside ha
    · exact h.operand (not_binds_of_sym (fun x e => hp ⟨x, e⟩) _ _) (by simp [ha])
  parameter h hp := h.operand (not_binds_of_sym hp _ _) (by simp)
  boundBody h hw := h.inside rfl (List.mem_singleton_self _) hw
  plainBody h hp := h.operand (not_binds_of_sym hp _ _) (by simp)
  applied _ hv has := hv.1.app has
  rebuilt _ hv has := hv.1.rebuilt has
  spliced h := h.spliced

end Tree

/-- **Evaluation is substitution on well-scoped programs.**  Let a parsed expression be closed, and
let no binder's name be free outside the binder's scope.  Then at every limit its evaluation has the
outcome of the calculation without frames, whatever the stack holds, and that is never a name that
is not bound. -/
theorem hybrid_is_substitution {source : String} {e : Tree} (hparse : Tree.parse source = .ok e)
    (hclosed : e.Closed) (hseparate : e.Separate) (limit : Nat) (stack : Stack) :
    (evaluate limit stack e).outcome = calculate limit e ∧
      ∀ name, (evaluate limit stack e).outcome ≠ .fault (.unbound name) := by
  have hpure : e.Pure := ⟨hclosed, hseparate.exposed (Tree.flat_of_parse hparse)⟩
  refine ⟨?_, fun name h => ?_⟩
  · exact Tree.invariant_pure.calculate (fun x hx => hx.closed x .name) limit hpure
  · have hgood : (evaluate limit stack e).Good (fun _ => Tree.Pure) Tree.PureValue :=
      Tree.invariant_pure.evaluate limit hpure
    rw [Run.Good, h] at hgood
    obtain ⟨-, hname, -⟩ := hgood
    exact hname.closed name .name

/-- `(δ k (λ x (λ y x)) k Φ "a")`: the function ends up in operator position, under its operands. -/
def Tree.chosen : Tree :=
  .app (.form .delta) [.sym "k", .app (.form .lambda) [.sym "x",
    .app (.form .lambda) [.sym "y", .sym "x"]], .sym "k", .nil, .text "a"]

/-- The frames in which this is evaluated bind its names to something else. -/
theorem hybrid_is_substitution_chosen :
    Tree.parse "(δ k (λ x (λ y x)) k Φ \"a\")" = .ok .chosen ∧ Tree.chosen.Closed ∧
      Tree.chosen.Separate ∧ calculate 9 .chosen = .value .nil ∧
      (evaluate 9 [[("k", .text "k"), ("x", .sym "k")], [("y", .nil)]] .chosen).outcome =
        .value .nil := by
  have hparse : Tree.parse "(δ k (λ x (λ y x)) k Φ \"a\")" = .ok .chosen := rfl
  have hclosed : Tree.chosen.Closed := by
    intro x hx
    simp [Tree.chosen, Tree.free_app_iff, Tree.scoping, Tree.free_sym_iff] at hx
    grind
  have hseparate : Tree.chosen.Separate := by
    simp [Tree.Separate, Tree.chosen, Tree.nodes_app, Tree.SeparatesAt, Tree.scoping,
      Tree.free_app_iff, Tree.free_sym_iff, Tree.nodes_leaf]
  have hvalue : calculate 9 .chosen = .value .nil := rfl
  refine ⟨hparse, hclosed, hseparate, hvalue, ?_⟩
  rw [← hvalue]
  exact (hybrid_is_substitution hparse hclosed hseparate 9 _).1

end Curried
