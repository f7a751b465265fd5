import Curried.Proofs.Agreement
import Curried.Proofs.Calculus
import Curried.Proofs.Limit
import Curried.Proofs.Values

/-!
# Proofs — evaluation without a limit

The limit on the depth of an evaluation decides whether there is an outcome, and not which one: an
outcome that is not too deep is the outcome at every greater limit (`steady_evaluate`).  So there is
one outcome that an evaluation has if the limit is great enough (`eventual`); it is too deep if the
evaluation is too deep at every limit, that is, if it never ends (`eventual_eq_iff`).

Without the limit the rules of evaluation are equations: each says what an application comes to in
terms of the trees that are evaluated inside it.  They follow from one fact, that going on with a
value may be done at each limit or once for all (`Steady.reached_andThen`).
-/

namespace Curried

/-! ### Outcomes at growing limits -/

/-- Going on, on both sides. -/
theorem Outcome.StandsIn.andThen {o o' : Outcome} {next next' : Tree → Outcome} (h : o.StandsIn o')
    (hn : ∀ v, (next v).StandsIn (next' v)) : (o.andThen next).StandsIn (o'.andThen next') := by
  cases o with
  | value v =>
      obtain rfl : o' = .value v := h (by simp)
      exact hn v
  | fault f =>
      obtain rfl : o' = .fault f := h (by simp)
      exact .refl _
  | tooDeep => exact fun hne => absurd rfl hne

/-- Outcomes, one for each limit, that stay once they are not too deep. -/
def Steady (os : Nat → Outcome) : Prop := ∀ ⦃m n : Nat⦄, m ≤ n → (os m).StandsIn (os n)

open Classical in
/-- The outcome that is not too deep, if one of these is not. -/
noncomputable def reached (os : Nat → Outcome) : Outcome :=
  if h : ∃ n, os n ≠ .tooDeep then os h.choose else .tooDeep

theorem reached_of_forall {os : Nat → Outcome} (h : ∀ n, os n = .tooDeep) :
    reached os = .tooDeep :=
  dif_neg fun ⟨n, hn⟩ => hn (h n)

namespace Steady

variable {os : Nat → Outcome}

theorem reached_eq (h : Steady os) {n : Nat} (hn : os n ≠ .tooDeep) : reached os = os n := by
  have hex : ∃ n, os n ≠ .tooDeep := ⟨n, hn⟩
  rw [reached, dif_pos hex]
  rcases Nat.le_total n hex.choose with hle | hle
  · exact h hle hn
  · exact (h hle hex.choose_spec).symm

/-- What is reached is the outcome at some limit, or every outcome is too deep. -/
theorem reached_cases (h : Steady os) :
    ((∀ n, os n = .tooDeep) ∧ reached os = .tooDeep) ∨ ∃ n, os n ≠ .tooDeep ∧ reached os = os n := by
  by_cases hex : ∃ n, os n ≠ .tooDeep
  · obtain ⟨n, hn⟩ := hex
    exact .inr ⟨n, hn, h.reached_eq hn⟩
  · have hall : ∀ n, os n = .tooDeep := fun n => by_contra fun hn => hex ⟨n, hn⟩
    exact .inl ⟨hall, reached_of_forall hall⟩

/-- The first limit does not count. -/
theorem reached_succ (h : Steady os) : reached (fun n => os (n + 1)) = reached os := by
  have hsucc : Steady fun n => os (n + 1) := fun m n hle => h (Nat.succ_le_succ hle)
  rcases h.reached_cases with ⟨hall, he⟩ | ⟨n, hn, he⟩
  · rw [he, reached_of_forall fun n => hall (n + 1)]
  · have hstays : os (n + 1) = os n := h (Nat.le_succ n) hn
    rw [he, hsucc.reached_eq (n := n) (by rwa [hstays]), hstays]

theorem andThen (h : Steady os) {ks : Tree → Nat → Outcome} (hk : ∀ v, Steady (ks v)) :
    Steady fun n => (os n).andThen fun v => ks v n :=
  fun _ _ hle => (h hle).andThen fun v => hk v hle

/-- **Going on at each limit is going on with what is reached.** -/
theorem reached_andThen (h : Steady os) {ks : Tree → Nat → Outcome} (hk : ∀ v, Steady (ks v)) :
    reached (fun n => (os n).andThen fun v => ks v n) =
      (reached os).andThen fun v => reached (ks v) := by
  rcases h.reached_cases with ⟨hall, he⟩ | ⟨m, hm, he⟩
  · rw [he, reached_of_forall fun n => by rw [hall n, Outcome.andThen]]
    rfl
  · rw [he]
    cases ho : os m with
    | tooDeep => exact absurd ho hm
    | fault f =>
        have hfault : (os m).andThen (fun v => ks v m) = .fault f := by rw [ho, Outcome.andThen]
        rw [(h.andThen hk).reached_eq (n := m) (by rw [hfault]; simp), hfault]
        rfl
    | value v =>
        -- From the limit `m` on, both sides are what follows `v`.
        have hlater : ∀ n, m ≤ n → os n = .value v := fun n hle => (h hle hm).trans ho
        show _ = reached (ks v)
        rcases (hk v).reached_cases with ⟨hall, he⟩ | ⟨k, hne, he⟩
        · rw [he]
          refine reached_of_forall fun n => by_contra fun hne => ?_
          have hmax : (os (max m n)).andThen (fun v => ks v (max m n)) = _ :=
            (h.andThen hk) (Nat.le_max_right m n) hne
          rw [hlater _ (Nat.le_max_left m n), Outcome.andThen, hall] at hmax
          exact hne hmax.symm
        · have hmax : ks v (max m k) = ks v k := hk v (Nat.le_max_right m k) hne
          have hboth : (os (max m k)).andThen (fun v => ks v (max m k)) = ks v k := by
            rw [hlater _ (Nat.le_max_left m k), Outcome.andThen, hmax]
          rw [he, (h.andThen hk).reached_eq (n := max m k) (by rwa [hboth]), hboth]

end Steady

/-! ### Evaluation -/

/-- **A greater limit gives the same outcome**, if there was one. -/
theorem steady_evaluate (s : Stack) (t : Tree) : Steady fun limit => (evaluate limit s t).outcome :=
  fun _ _ hle hne => congrArg Run.outcome (standsIn_evaluate hle s t hne)

/-- The outcome of an evaluation if the limit is great enough. -/
noncomputable def eventual (s : Stack) (t : Tree) : Outcome :=
  reached fun limit => (evaluate limit s t).outcome

/-- **The eventual outcome** is the outcome at some limit, or too deep at all of them. -/
theorem eventual_eq_iff {s : Stack} {t : Tree} {o : Outcome} :
    eventual s t = o ↔ (o = .tooDeep ∧ ∀ limit, (evaluate limit s t).outcome = .tooDeep) ∨
      (o ≠ .tooDeep ∧ ∃ limit, (evaluate limit s t).outcome = o) := by
  constructor
  · rintro rfl
    rcases (steady_evaluate s t).reached_cases with ⟨hall, he⟩ | ⟨limit, hne, he⟩
    · exact .inl ⟨he, hall⟩
    · exact .inr ⟨by rwa [eventual, he], limit, he.symm⟩
  · rintro (⟨rfl, hall⟩ | ⟨hne, limit, rfl⟩)
    · exact reached_of_forall hall
    · exact (steady_evaluate s t).reached_eq hne

/-- One reduction, with evaluations at every limit inside it. -/
theorem eventual_eq_reached (s : Stack) (t : Tree) :
    eventual s t = reached fun limit => (Evaluation.reduce (evaluate limit) s t).outcome :=
  (steady_evaluate s t).reached_succ.symm

/-- Going on with the values of runs that leave the stack as it was. -/
theorem Steady.reached_run {rs : Nat → Run} {s : Stack} (hs : ∀ limit, (rs limit).stack = s)
    (h : Steady fun limit => (rs limit).outcome) {next : Nat → Stack → Tree → Run}
    (hnext : ∀ v, Steady fun limit => (next limit s v).outcome) :
    reached (fun limit => ((rs limit).andThen (next limit)).outcome) =
      (reached fun limit => (rs limit).outcome).andThen fun v =>
        reached fun limit => (next limit s v).outcome := by
  have hrun : ∀ limit, ((rs limit).andThen (next limit)).outcome =
      (rs limit).outcome.andThen fun v => (next limit s v).outcome := fun limit => by
    rw [Run.outcome_andThen, hs limit]
  rw [funext hrun]
  exact h.reached_andThen hnext

/-- Going on with the value of an evaluation. -/
theorem reached_evaluate_andThen {s : Stack} {t : Tree} {next : Nat → Stack → Tree → Run}
    (hnext : ∀ v, Steady fun limit => (next limit s v).outcome) :
    reached (fun limit => ((evaluate limit s t).andThen (next limit)).outcome) =
      (eventual s t).andThen fun v => reached fun limit => (next limit s v).outcome :=
  (steady_evaluate s t).reached_run (fun limit => restores_evaluate limit s t) hnext

/-! ### The rules as equations -/

/-- A literal, a function without arguments and `(ι)` are their own values. -/
theorem eventual_value {v : Tree} (h : v.IsValue) (hv : v ≠ .form .ignore) (s : Stack) :
    eventual s v = .value v :=
  eventual_eq_iff.mpr (.inr ⟨by simp, 1, h.evaluate hv 0 s⟩)

/-- An operator is spliced as far as it goes. -/
theorem eventual_splice (s : Stack) (f : Tree) (as : List Tree) :
    eventual s (.app f as) = eventual s (f.apply as) := by
  cases f with
  | app g bs => exact eventual_eq_reached s _
  | num | text | nil | sym | form | host => rfl

/-- `((f a …) b …)` is `(f a … b …)`. -/
theorem eventual_app_app (s : Stack) (f : Tree) (as bs : List Tree) :
    eventual s (.app (.app f as) bs) = eventual s (.app f (as ++ bs)) := by
  rw [eventual_splice, eventual_splice s f, Tree.apply]

/-- A name in operator position is evaluated, and its value applied. -/
theorem eventual_name (s : Stack) (x : String) (as : List Tree) :
    eventual s (.app (.sym x) as) =
      (eventual s (.sym x)).andThen fun head => eventual s (.app head as) := by
  have hrebuild : ∀ head, eventual s (Evaluation.rebuild head as) = eventual s (.app head as) := by
    intro head
    cases head with
    | app g bs => exact (eventual_app_app s g bs as).symm
    | num | text | nil | sym | form | host => rfl
  calc eventual s (.app (.sym x) as)
      = (eventual s (.sym x)).andThen fun head => eventual s (Evaluation.rebuild head as) :=
        (eventual_eq_reached s _).trans (reached_evaluate_andThen fun _ => steady_evaluate s _)
    _ = _ := congrArg _ (funext hrebuild)

theorem eventual_identity_single (s : Stack) (a : Tree) :
    eventual s (.app (.form .iota) [a]) = eventual s a :=
  eventual_eq_reached s _

/-- `(ι f a …)` applies the value of `f`. -/
theorem eventual_identity (s : Stack) (f a : Tree) (as : List Tree) :
    eventual s (.app (.form .iota) (f :: a :: as)) =
      (eventual s f).andThen fun g => eventual s (.app g (a :: as)) :=
  (eventual_eq_reached s _).trans (reached_evaluate_andThen fun _ => steady_evaluate s _)

/-- `(λ p b a c …)` applies the value of `(λ p b a)`. -/
theorem eventual_function (s : Stack) (p b a c : Tree) (cs : List Tree) :
    eventual s (.app (.form .lambda) (p :: b :: a :: c :: cs)) =
      (eventual s (.app (.form .lambda) [p, b, a])).andThen fun r =>
        eventual s (.app r (c :: cs)) := by
  -- With one argument, a call is all there is to evaluate.
  have hcall : ∀ limit, (evaluate (limit + 1) s (.app (.form .lambda) [p, b, a])).outcome =
      (Evaluation.call (evaluate limit) s p b a).outcome := fun limit => by
    show (Run.andThen _ _).outcome = _
    rw [Run.outcome_andThen]
    exact Outcome.andThen_value _
  have hsteady : Steady fun limit => (Evaluation.call (evaluate limit) s p b a).outcome := by
    intro m n hle
    have hlater := steady_evaluate s (.app (.form .lambda) [p, b, a]) (Nat.add_le_add_right hle 1)
    simpa only [hcall] using hlater
  have hone : eventual s (.app (.form .lambda) [p, b, a]) = _ :=
    (eventual_eq_reached s _).trans (congrArg reached (funext hcall))
  rw [hone, eventual_eq_reached]
  exact hsteady.reached_run (fun limit => Evaluation.restores_call (restores_evaluate limit) s p b a)
    fun _ => steady_evaluate s _

/-- It does not matter whether a name is bound in a frame of its own. -/
theorem eventual_merge (s : Stack) (x : String) (w t : Tree) :
    eventual (Bracket.merge s x w).1 t = eventual (Bracket.scope s x w).1 t := by
  have hall : ∀ t : Tree, t.NamesIn fun _ => True := Tree.namesIn_of_forall fun _ => trivial
  have hagree : (Bracket.merge s x w).1.Agree (fun _ => True) (Bracket.scope s x w).1 := by
    intro y _
    rw [Bracket.lookup?_scope, Bracket.lookup?_merge]
  exact congrArg reached (funext (hagree.outcome (fun _ v _ _ => hall v) (hall t)))

/-- `(δ x v b)` evaluates `b` with the value of `v` for `x`. -/
theorem eventual_define (s : Stack) (x : String) (v b : Tree) :
    eventual s (.app (.form .delta) [.sym x, v, b]) =
      (eventual s v).andThen fun w =>
        eventual (Bracket.scope s x w).1 (Tree.substitute x w b) :=
  (eventual_eq_reached s _).trans (reached_evaluate_andThen fun _ => steady_evaluate _ _)

/-- `(δ x v f a …)` so evaluates `(f a …)`, with its parts replaced one by one. -/
theorem eventual_define_call (s : Stack) (x : String) (v f a : Tree) (as : List Tree) :
    eventual s (.app (.form .delta) (.sym x :: v :: f :: a :: as)) =
      (eventual s v).andThen fun w => eventual (Bracket.scope s x w).1
        (.app (Tree.substitute x w f) ((a :: as).map (Tree.substitute x w))) := by
  calc eventual s (.app (.form .delta) (.sym x :: v :: f :: a :: as))
      = (eventual s v).andThen fun w => eventual (Bracket.merge s x w).1
          (.app (Tree.substitute x w f) (Tree.substituteAll x w (a :: as))) :=
        (eventual_eq_reached s _).trans (reached_evaluate_andThen fun _ => steady_evaluate _ _)
    _ = _ := by
        simp only [eventual_merge, Tree.substituteAll_eq_map]

end Curried
