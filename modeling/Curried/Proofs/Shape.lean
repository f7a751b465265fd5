import Curried.Tree.Substitution

/-!
# Proofs — predicates on all of a tree

`Tree.All L N` says that every leaf of a tree is an `L` and every application `(f a …)` in it is an
`N`, operators included.  The leaves alone are `Tree.Leaves L`, and the shape alone is
`Tree.Nodes N`.  `Tree.byApp` is the induction that goes with it.
-/

namespace Curried.Tree

/-- Induction over leaves and applications. -/
@[elab_as_elim]
theorem byApp {P : Tree → Prop} (leaf : ∀ t, (∀ f as, t ≠ .app f as) → P t)
    (app : ∀ f as, P f → (∀ a ∈ as, P a) → P (.app f as)) : ∀ t, P t := by
  intro t
  refine @Tree.rec P (fun as => ∀ a ∈ as, P a) ?_ ?_ ?_ ?_ ?_ ?_ app ?_ ?_ t
  · exact fun n => leaf _ (by simp)
  · exact fun s => leaf _ (by simp)
  · exact leaf _ (by simp)
  · exact fun x => leaf _ (by simp)
  · exact fun f => leaf _ (by simp)
  · exact fun h => leaf _ (by simp)
  · simp
  · exact fun a as ha has => List.forall_mem_cons.mpr ⟨ha, has⟩

mutual

/-- Every leaf is an `L` and every application an `N`. -/
def All (L : Tree → Prop) (N : Tree → List Tree → Prop) : Tree → Prop
  | .app f as => N f as ∧ All L N f ∧ AllIn L N as
  | t => L t

/-- The same of several trees. -/
def AllIn (L : Tree → Prop) (N : Tree → List Tree → Prop) : List Tree → Prop
  | [] => True
  | t :: ts => All L N t ∧ AllIn L N ts

end

/-- Every leaf is an `L`. -/
def Leaves (L : Tree → Prop) : Tree → Prop := All L fun _ _ => True

/-- Every application is an `N`. -/
def Nodes (N : Tree → List Tree → Prop) : Tree → Prop := All (fun _ => True) N

variable {L : Tree → Prop} {N : Tree → List Tree → Prop}

theorem allIn_iff {ts : List Tree} : AllIn L N ts ↔ ∀ t ∈ ts, All L N t := by
  induction ts with
  | nil => simp [AllIn]
  | cons t ts ih => simp [AllIn, ih]

theorem all_app {f : Tree} {as : List Tree} :
    All L N (.app f as) ↔ N f as ∧ All L N f ∧ ∀ a ∈ as, All L N a := by
  rw [All, allIn_iff]

theorem all_leaf {t : Tree} (h : ∀ f as, t ≠ .app f as) : All L N t ↔ L t := by
  cases t with
  | app f as => exact absurd rfl (h f as)
  | num | text | nil | sym | form | host => rw [All]; simp

theorem leaves_app {f : Tree} {as : List Tree} :
    Leaves L (.app f as) ↔ Leaves L f ∧ ∀ a ∈ as, Leaves L a := by
  simp [Leaves, all_app]

theorem nodes_app {f : Tree} {as : List Tree} :
    Nodes N (.app f as) ↔ N f as ∧ Nodes N f ∧ ∀ a ∈ as, Nodes N a := all_app

theorem leaves_leaf {t : Tree} (h : ∀ f as, t ≠ .app f as) : Leaves L t ↔ L t := all_leaf h

theorem nodes_leaf {t : Tree} (h : ∀ f as, t ≠ .app f as) : Nodes N t :=
  (all_leaf h).mpr trivial

/-! ### Substitution -/

theorem substitute_app {x : String} {v f : Tree} {as : List Tree} :
    substitute x v (.app f as) = if shadows x f as then .app f as
      else .app (substituteLeaf x v f) (as.map (substitute x v)) := by
  rw [substitute, substituteAll_eq_map]

theorem substitute_leaf {x : String} {v t : Tree} (h : ∀ f as, t ≠ .app f as) :
    substitute x v t = substituteLeaf x v t := by
  cases t with
  | app f as => exact absurd rfl (h f as)
  | num | text | nil | sym | form | host => rw [substitute]; simp

/-- A leaf of `t` with `v` in place of a name is a leaf of `t` or of `v`. -/
theorem leaves_substituteLeaf {x : String} {v t : Tree} (hv : Leaves L v) (ht : Leaves L t) :
    Leaves L (substituteLeaf x v t) := by
  unfold substituteLeaf
  split
  · split
    · exact hv
    · exact ht
  · exact ht

theorem leaves_substitute {x : String} {v t : Tree} (hv : Leaves L v) (ht : Leaves L t) :
    Leaves L (substitute x v t) := by
  induction t using byApp with
  | leaf t h =>
      rw [substitute_leaf h]
      exact leaves_substituteLeaf hv ht
  | app f as _ ih =>
      rw [substitute_app]
      split
      · exact ht
      · obtain ⟨hf, has⟩ := leaves_app.mp ht
        refine leaves_app.mpr ⟨leaves_substituteLeaf hv hf, fun b hb => ?_⟩
        obtain ⟨a, ha, rfl⟩ := List.mem_map.mp hb
        exact ih a ha (has a ha)

/-- Splicing keeps the leaves. -/
theorem leaves_apply {f : Tree} {as : List Tree} (hf : Leaves L f) (has : ∀ a ∈ as, Leaves L a) :
    Leaves L (f.apply as) := by
  fun_induction apply f as with
  | case1 g bs as ih =>
      obtain ⟨hg, hbs⟩ := leaves_app.mp hf
      exact ih hg fun a ha => (List.mem_append.mp ha).elim (hbs a) (has a)
  | case2 f as _ => exact leaves_app.mpr ⟨hf, has⟩

end Curried.Tree
