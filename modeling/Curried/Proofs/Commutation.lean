import Curried.Proofs.Scope

/-!
# Proofs — independent substitutions commute

Substitution goes by the operator: it replaces an operator that is the name itself, it stops at a
form that binds the name, and it leaves any other operator alone.  So a first substitution could
change what a second one does, by putting something else in operator position.

It does not if what is put in is *inert* for the name of the second one (`Tree.Inert`): it is no
form that binds, and it has nothing to replace.  Then the application binds the same names as before
(`Tree.shadows_substitute`), and its operator is the same in whatever order it is replaced
(`Tree.substituteLeaf_comm`).
-/

namespace Curried

namespace Tree

/-- A tree that a substitution for `x` neither changes nor is stopped by. -/
structure Inert (x : String) (v : Tree) : Prop where
  /-- As an operator it binds nothing. -/
  plain : ∀ g, v = .form g → g.binds = false
  /-- Nothing in it is replaced. -/
  fixed : ∀ u, substitute x u v = v

/-- An inert operator stays. -/
theorem Inert.substituteLeaf_eq {x : String} {v : Tree} (h : Inert x v) (u : Tree) :
    substituteLeaf x u v = v := by
  by_cases happ : ∃ f as, v = .app f as
  · obtain ⟨f, as, rfl⟩ := happ
    rfl
  · rw [← substitute_leaf fun f as e => happ ⟨f, as, e⟩]
    exact h.fixed u

/-- Substitution stops exactly at what binds the name. -/
theorem shadows_iff {x : String} {f : Tree} {as : List Tree} :
    shadows x f as ↔ (scoping f as).binder? = some x := by
  refine ⟨fun h => (binder_of_shadows h).1, fun h => ?_⟩
  by_cases hb : Binds f as
  · obtain ⟨g, y, rest, rfl, hg, rfl⟩ := hb
    have hy : y = x := by
      cases g with
      | delta | lambda | epsilon => exact Option.some.inj h
      | arrow | iota | ignore | omega => cases hg
    simp [shadows, hg, hy]
  · rw [scoping_of_not_binds hb] at h
    cases h

/-- **An application binds what it bound** after a substitution that goes into it. -/
theorem shadows_substitute {x y : String} {w f : Tree} {as : List Tree}
    (hw : ∀ g, w = .form g → g.binds = false) (hy : ¬ shadows y f as) :
    shadows x (substituteLeaf y w f) (as.map (substitute y w)) ↔ shadows x f as := by
  rw [shadows_iff, shadows_iff, scoping_substitute hy hw]
  rfl

/-- Two substitutions, the first of which goes into an application. -/
theorem substitute_substitute_app {x y : String} {v w f : Tree} {as : List Tree}
    (hw : ∀ g, w = .form g → g.binds = false) (hy : ¬ shadows y f as) (hx : ¬ shadows x f as) :
    substitute x v (substitute y w (.app f as)) =
      .app (substituteLeaf x v (substituteLeaf y w f))
        (as.map fun a => substitute x v (substitute y w a)) := by
  rw [substitute_app, if_neg hy, substitute_app, if_neg fun h => hx ((shadows_substitute hw hy).mp h),
    List.map_map]
  rfl

/-- Two substitutions, the second of which stops at an application. -/
theorem substitute_substitute_of_shadows {x y : String} {v w f : Tree} {as : List Tree}
    (hw : ∀ g, w = .form g → g.binds = false) (hx : shadows x f as) :
    substitute x v (substitute y w (.app f as)) = substitute y w (.app f as) := by
  by_cases hy : shadows y f as
  · rw [substitute_app, if_pos hy, substitute_app, if_pos hx]
  · rw [substitute_app, if_neg hy, substitute_app, if_pos ((shadows_substitute hw hy).mpr hx)]

section

variable {x y : String} {v w : Tree}

/-- **The leaves**, and with them the operators, in either order. -/
theorem substituteLeaf_comm (hxy : x ≠ y) (hv : Inert y v) (hw : Inert x w) (f : Tree) :
    substituteLeaf x v (substituteLeaf y w f) = substituteLeaf y w (substituteLeaf x v f) := by
  rcases substituteLeaf_cases x v f with ⟨rfl, hx⟩ | ⟨-, hx⟩
  · have hy : substituteLeaf y w (.sym x) = .sym x := by simp [substituteLeaf, hxy]
    rw [hx, hy, hx, hv.substituteLeaf_eq]
  · rcases substituteLeaf_cases y w f with ⟨-, hy⟩ | ⟨-, hy⟩
    · rw [hx, hy, hw.substituteLeaf_eq]
    · rw [hx, hy, hx]

/-- **Substitutions for two names** may be made in either order. -/
theorem substitute_comm (hxy : x ≠ y) (hv : Inert y v) (hw : Inert x w) (e : Tree) :
    substitute x v (substitute y w e) = substitute y w (substitute x v e) := by
  induction e using byApp with
  | leaf t h =>
      rcases substituteLeaf_cases x v t with ⟨rfl, hx⟩ | ⟨-, hx⟩
      · have hy : substitute y w (.sym x) = .sym x := by simp [substitute, substituteLeaf, hxy]
        rw [hy, substitute_leaf h, hx, hv.fixed]
      · rcases substituteLeaf_cases y w t with ⟨-, hy⟩ | ⟨-, hy⟩
        · rw [substitute_leaf h, substitute_leaf h, hx, hy, hw.fixed, substitute_leaf h, hy]
        · rw [substitute_leaf h, substitute_leaf h, hx, hy, substitute_leaf h, substitute_leaf h,
            hx, hy]
  | app f as _ ih =>
      by_cases hx : shadows x f as
      · rw [substitute_substitute_of_shadows hw.plain hx]
        rw [show substitute x v (.app f as) = .app f as by rw [substitute_app, if_pos hx]]
      · by_cases hy : shadows y f as
        · rw [substitute_substitute_of_shadows hv.plain hy]
          rw [show substitute y w (.app f as) = .app f as by rw [substitute_app, if_pos hy]]
        · rw [substitute_substitute_app hw.plain hy hx, substitute_substitute_app hv.plain hx hy,
            substituteLeaf_comm hxy hv hw, List.map_congr_left ih]

/-- **A second substitution for the same name** finds nothing left to replace. -/
theorem substitute_idem (hv : Inert x v) (e : Tree) :
    substitute x v (substitute x v e) = substitute x v e := by
  induction e using byApp with
  | leaf t h =>
      rcases substituteLeaf_cases x v t with ⟨-, hx⟩ | ⟨-, hx⟩
      · rw [substitute_leaf h, hx, hv.fixed]
      · rw [substitute_leaf h, hx, substitute_leaf h, hx]
  | app f as _ ih =>
      by_cases hx : shadows x f as
      · exact substitute_substitute_of_shadows hv.plain hx
      · have hf : substituteLeaf x v (substituteLeaf x v f) = substituteLeaf x v f := by
          rcases substituteLeaf_cases x v f with ⟨-, e⟩ | ⟨-, e⟩
          · rw [e, hv.substituteLeaf_eq]
          · rw [e, e]
        rw [substitute_substitute_app hv.plain hx hx, hf, List.map_congr_left ih, substitute_app,
          if_neg hx]

end

end Tree

/-- **Independent substitutions commute.**  Let `x` and `y` be different names, and let what is put
in their places bind nothing as an operator and have neither name to replace.  Then the two
substitutions may be made in either order, and one that is made a second time changes nothing. -/
theorem substitutions_commute {x y : String} (hxy : x ≠ y) {v w : Tree} (hvx : v.Inert x)
    (hvy : v.Inert y) (hwx : w.Inert x) (e : Tree) :
    Tree.substitute x v (Tree.substitute y w e) = Tree.substitute y w (Tree.substitute x v e) ∧
      Tree.substitute x v (Tree.substitute x v e) = Tree.substitute x v e :=
  ⟨Tree.substitute_comm hxy hvy hwx e, Tree.substitute_idem hvx e⟩

/-- In `(x (λ y (x y)) (δ x y x) y)` the first `x` makes way for a function, and one substitution
stops at the `λ`, the other at the `δ`. -/
theorem substitutions_commute_headed :
    let v : Tree := .app (.form .lambda) [.sym "z", .sym "z"]
    let w : Tree := .text "a"
    let e : Tree := .app (.sym "x") [.app (.form .lambda) [.sym "y", .app (.sym "x") [.sym "y"]],
      .app (.form .delta) [.sym "x", .sym "y", .sym "x"], .sym "y"]
    let both : Tree := .app v [.app (.form .lambda) [.sym "y", .app v [.sym "y"]],
      .app (.form .delta) [.sym "x", w, .sym "x"], w]
    v.Inert "x" ∧ v.Inert "y" ∧ w.Inert "x" ∧
      Tree.substitute "y" w (Tree.substitute "x" v e) = both ∧
      Tree.substitute "x" v (Tree.substitute "y" w e) = both ∧
      Tree.substitute "x" v (Tree.substitute "x" v e) = Tree.substitute "x" v e := by
  intro v w e both
  have hvx : v.Inert "x" := ⟨by simp [v], fun u => rfl⟩
  have hvy : v.Inert "y" := ⟨by simp [v], fun u => rfl⟩
  have hwx : w.Inert "x" := ⟨by simp [w], fun u => rfl⟩
  obtain ⟨comm, idem⟩ := substitutions_commute (by decide : "x" ≠ "y") hvx hvy hwx e
  exact ⟨hvx, hvy, hwx, rfl, comm.trans rfl, idem⟩

end Curried
