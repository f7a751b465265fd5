import Curried.Proofs.Invariant
import Curried.Proofs.Scope
import Curried.Tree.Parser

/-!
# Proofs — closure capture

An evaluation meets trees with names in them, on stacks that hold the names.  `Tree.Ready` says that
a stack is enough for a tree: the frames hold every free name, none of them comes late, and the
tree is well-scoped.  Evaluation leads from ready trees to ready trees, and to values that need no
frames at all (`Tree.invariant_ready`).  So no name is ever missing (`closure_capture`).

The condition on scopes is there for a reason: the closed expressions of `capture_incomplete` break
it in different ways, and each ends with a name that is not bound.
-/

namespace Curried

namespace Tree

/-- The stack is enough for the tree: it holds the free names, with values that need no stack, and
no name comes late. -/
structure Ready (stack : Stack) (t : Tree) : Prop where
  wellScoped : WellScoped t
  bound : ∀ x, Free x t → ∃ v, stack.lookup? x = some v
  timely : ∀ x, ¬ Late x t
  frames : ∀ x v, stack.lookup? x = some v → Fit v

theorem fit_leaf {t : Tree} (hsym : ∀ x, t ≠ .sym x) (happ : ∀ f as, t ≠ .app f as)
    (hform : ∀ g, t = .form g → g.binds = false) : Fit t := by
  refine ⟨closed_leaf hsym happ, nodes_leaf happ, ?_⟩
  intro h
  cases h with
  | form hg => rw [hform _ rfl] at hg; cases hg
  | function | external | define | body | operator => exact happ _ _ rfl

theorem Deferred.unfinished {f b : Tree} {as : List Tree} (h : Deferred f as b) : Unfinished f := by
  cases h with
  | function => exact .form rfl
  | call => exact .form rfl
  | operand hg => exact hg

/-- A binding form without operands lacks its name. -/
theorem unfinished_nil {g : Form} (hg : g.binds) : Unfinished (.app (.form g) []) := by
  cases g with
  | delta => exact .define (by simp)
  | lambda => exact .function (by simp)
  | epsilon => exact .external
  | arrow | iota | ignore | omega => cases hg

/-! ### Parts of an application -/

namespace Ready

variable {stack : Stack} {f a : Tree} {as : List Tree}

/-- A value that needs no stack is ready on any that is fit for something. -/
theorem of_fit {t v : Tree} (h : Ready stack t) (hv : Fit v) : Ready stack v where
  wellScoped := hv.wellScoped
  bound x hx := absurd hx (hv.closed x)
  timely x hx := hv.closed x hx.free
  frames := h.frames

theorem operator (h : Ready stack (.app f as)) : Ready stack f where
  wellScoped := (wellScoped_app.mp h.wellScoped).2.1
  bound x hx := h.bound x (.operator hx)
  timely x hx := h.timely x (.operator hx)
  frames := h.frames

theorem outside (h : Ready stack (.app f as)) (ha : a ∈ (scoping f as).outside) :
    Ready stack a where
  wellScoped := (wellScoped_app.mp h.wellScoped).2.2 a (mem_of_mem_outside ha)
  bound x hx := h.bound x (.outside ha hx)
  timely x hx := h.timely x (.outside ha hx)
  frames := h.frames

/-- The operands where nothing is bound. -/
theorem operand (h : Ready stack (.app f as)) (hb : ¬ Binds f as) (ha : a ∈ as) : Ready stack a :=
  h.outside (by rwa [scoping_of_not_binds hb])

/-- **The operands in a scope**, with a value in place of the name and in a frame. -/
theorem inside {stack' : Stack} {x : String} {w : Tree} (h : Ready stack (.app f as))
    (hx : (scoping f as).binder? = some x) (ha : a ∈ (scoping f as).inside) (hw : Fit w)
    (hstack : ∀ y, stack'.lookup? y = if x = y then some w else stack.lookup? y) :
    Ready stack' (substitute x w a) := by
  have hscoped : WellScoped a := (wellScoped_app.mp h.wellScoped).2.2 a (mem_of_mem_inside ha)
  have hother : ∀ y, x ≠ y → (scoping f as).binder? ≠ some y := by
    intro y hy e
    exact hy (Option.some.inj (hx ▸ e))
  refine ⟨wellScoped_substitute hw hscoped, ?_, ?_, ?_⟩
  · intro y hy
    rw [hstack]
    split
    · exact ⟨w, rfl⟩
    · rename_i hxy
      exact h.bound y (.inside ha (hother y hxy) (free_substitute hw hy).1)
  · intro y hy
    by_cases hxy : x = y
    · subst hxy
      exact not_late_substitute hw hscoped hy
    · exact h.timely y (.inside ha (hother y hxy) (late_of_substitute hw hy))
  · intro y v hv
    rw [hstack] at hv
    split at hv
    · cases hv
      exact hw
    · exact h.frames y v hv

/-- What an operator that lacks operands is given has no free names. -/
theorem closed_operand {g : Tree} {bs : List Tree} (h : Ready stack (.app (.app g bs) as))
    (hu : Unfinished (.app g bs)) (ha : a ∈ as) : Closed a := by
  intro x hx
  refine h.timely x (.here ⟨?_, a, .operand hu ha, hx⟩)
  rw [scoping_of_not_binds (not_binds_of_form (by simp) as)]
  simp

/-! ### Building an application -/

/-- **An operator with operands** is ready if they are, and if one that lacks operands is given
closed ones. -/
theorem app (hf : Ready stack f) (has : ∀ a ∈ as, Ready stack a)
    (hclosed : Unfinished f → ∀ a ∈ as, Closed a) : Ready stack (.app f as) := by
  have hdeferred : ∀ b, Deferred f as b → Closed b := fun b hb =>
    hclosed hb.unfinished b hb.mem
  have hb : ¬ Binds f as := by
    intro hb
    obtain ⟨g, x, rest, rfl, hg, rfl⟩ := hb
    exact not_binds_of_closed (hclosed (.form hg)) _ ⟨g, x, rest, rfl, hg, rfl⟩
  have hscoping := scoping_of_not_binds hb
  refine ⟨wellScoped_app.mpr ⟨⟨?_, hf.timely, ?_⟩, hf.wellScoped, fun a ha => (has a ha).wellScoped⟩,
    ?_, ?_, hf.frames⟩
  · intro x hx
    rw [hscoping] at hx
    cases hx
  · intro b hb x hx
    exact absurd hx.free (hdeferred b hb x)
  · intro x hx
    rw [free_app_iff, hscoping] at hx
    rcases hx with hx | ⟨a, ha, hx⟩ | ⟨-, a, ha, -⟩
    · exact hf.bound x hx
    · exact (has a ha).bound x hx
    · cases ha
  · intro x hx
    unfold Late at hx
    rw [within_app_iff, hscoping] at hx
    rcases hx with ⟨-, b, hb, hx⟩ | hx | ⟨a, ha, hx⟩ | ⟨-, a, ha, -⟩
    · exact hdeferred b hb x hx
    · exact hf.timely x hx
    · exact (has a ha).timely x hx
    · cases ha

theorem applied {u v : Tree} (h : Ready stack u) (hv : Fit v) (has : ∀ a ∈ as, Ready stack a) :
    Ready stack (.app v as) :=
  .app (h.of_fit hv) has fun hu => absurd hu hv.finished

end Ready

/-! ### More operands -/

/-- Of more operands only those are deferred that an operator lacks. -/
theorem deferred_append {f d : Tree} {as bs : List Tree} (h : Deferred f (as ++ bs) d) :
    Deferred f as d ∨ (d ∈ bs ∧ Unfinished (.app f as)) := by
  generalize e : as ++ bs = cs at h
  cases h with
  | function h =>
      subst e
      by_cases hlength : as.length < 2
      · rcases List.mem_append.mp (List.mem_of_mem_take h) with hd | hd
        · exact .inl (.function (by rwa [List.take_of_length_le (by omega)]))
        · exact .inr ⟨hd, .function hlength⟩
      · exact .inl (.function (by rwa [List.take_append_of_le_length (by omega)] at h))
  | @call n v c _ cs hc h =>
      -- Three operands make a definition; with fewer in front, the rest all comes from behind.
      match as, e with
      | [], e => exact .inr ⟨by simp only [List.nil_append] at e; simp [e, h], .define (by simp)⟩
      | [_], e => exact .inr ⟨by simp at e; simp [e.2, h], .define (by simp)⟩
      | [_, _], e => exact .inr ⟨by simp at e; simp [e.2.2, h], .define (by simp)⟩
      | _ :: _ :: _ :: as, e =>
          simp only [List.cons_append, List.cons.injEq] at e
          obtain ⟨rfl, rfl, rfl, rfl⟩ := e
          rcases List.mem_append.mp h with hd | hd
          · exact .inl (.call hc hd)
          · exact .inr ⟨hd, .body hc⟩
  | operand hg h =>
      subst e
      rcases List.mem_append.mp h with hd | hd
      · exact .inl (.operand hg hd)
      · exact .inr ⟨hd, .operator hg⟩

section

variable {f : Tree} {as bs : List Tree} (hclosed : Unfinished (.app f as) → ∀ b ∈ bs, Closed b)
include hclosed

/-- More operands at the end change no binder, if an operator that lacks operands gets closed ones.
They lie outside or inside the scope. -/
theorem scoping_append :
    (scoping f (as ++ bs)).binder? = (scoping f as).binder? ∧
      (∀ a ∈ (scoping f (as ++ bs)).outside, a ∈ (scoping f as).outside ∨ a ∈ bs) ∧
      ∀ a ∈ (scoping f (as ++ bs)).inside, a ∈ (scoping f as).inside ∨ a ∈ bs := by
  by_cases hb : Binds f as
  · obtain ⟨g, x, rest, rfl, hg, rfl⟩ := hb
    have take : ∀ a ∈ (rest ++ bs).take 1, a ∈ rest.take 1 ∨ a ∈ bs := by
      intro a ha
      cases rest with
      | nil => exact .inr (List.mem_of_mem_take ha)
      | cons r rest => exact .inl (by simpa using ha)
    have drop : ∀ a ∈ (rest ++ bs).drop 1, a ∈ rest.drop 1 ∨ a ∈ bs := by
      intro a ha
      cases rest with
      | nil => exact .inr (List.mem_of_mem_drop ha)
      | cons r rest => simpa using ha
    cases g with
    | delta => exact ⟨rfl, take, drop⟩
    | lambda => exact ⟨rfl, drop, take⟩
    | epsilon => exact ⟨rfl, by simp [scoping], fun a ha => List.mem_append.mp ha⟩
    | arrow | iota | ignore | omega => cases hg
  · -- Only a bare binding form could get its name from behind, and a name is not closed.
    have hb' : ¬ Binds f (as ++ bs) := by
      rintro ⟨g, x, rest, rfl, hg, e⟩
      cases as with
      | nil => exact not_binds_of_closed (hclosed (unfinished_nil hg)) _ ⟨g, x, rest, rfl, hg, e⟩
      | cons a as =>
          obtain ⟨rfl, -⟩ := List.cons_eq_cons.mp e
          exact hb ⟨g, x, as, rfl, hg, rfl⟩
    rw [scoping_of_not_binds hb, scoping_of_not_binds hb']
    exact ⟨rfl, fun a ha => List.mem_append.mp ha, by simp⟩

theorem free_append {x : String} (h : Free x (.app f (as ++ bs))) :
    Free x (.app f as) ∨ ∃ b ∈ bs, Free x b := by
  obtain ⟨hbinder, hout, hin⟩ := scoping_append hclosed
  rcases free_app_iff.mp h with h | ⟨a, ha, h⟩ | ⟨hne, a, ha, h⟩
  · exact .inl (.operator h)
  · exact (hout a ha).imp (fun ha => .outside ha h) fun ha => ⟨a, ha, h⟩
  · exact (hin a ha).imp (fun ha => .inside ha (hbinder ▸ hne) h) fun ha => ⟨a, ha, h⟩

theorem late_append {x : String} (h : Late x (.app f (as ++ bs))) :
    Late x (.app f as) ∨ ∃ b ∈ bs, Late x b := by
  obtain ⟨hbinder, hout, hin⟩ := scoping_append hclosed
  rcases within_app_iff.mp h with ⟨hne, d, hd, h⟩ | h | ⟨a, ha, h⟩ | ⟨hne, a, ha, h⟩
  · rcases deferred_append hd with hd | ⟨hd, hu⟩
    · exact .inl (.here ⟨hbinder ▸ hne, d, hd, h⟩)
    · exact absurd h (hclosed hu d hd x)
  · exact .inl (.operator h)
  · exact (hout a ha).imp (fun ha => .outside ha h) fun ha => ⟨a, ha, h⟩
  · exact (hin a ha).imp (fun ha => .inside ha (hbinder ▸ hne) h) fun ha => ⟨a, ha, h⟩

theorem keeps_append (h : Keeps f as) (hbs : ∀ b ∈ bs, ∀ x, ¬ Late x b) : Keeps f (as ++ bs) := by
  obtain ⟨hbinder, hout, -⟩ := scoping_append hclosed
  refine ⟨?_, h.operator, ?_⟩
  · intro x hx a ha
    rcases hout a ha with ha | ha
    · exact h.outside x (hbinder ▸ hx) a ha
    · exact hbs a ha x
  · intro d hd x hx
    rw [hbinder]
    rcases deferred_append hd with hd | ⟨hd, hu⟩
    · exact h.deferred d hd x hx
    · exact absurd hx.free (hclosed hu d hd x)

end

namespace Ready

variable {stack : Stack} {f : Tree} {as bs : List Tree}

/-- **More operands at the end**, closed ones where some are lacking. -/
theorem append (h : Ready stack (.app f as)) (hbs : ∀ b ∈ bs, Ready stack b)
    (hclosed : Unfinished (.app f as) → ∀ b ∈ bs, Closed b) : Ready stack (.app f (as ++ bs)) := by
  obtain ⟨hkeeps, hf, has⟩ := wellScoped_app.mp h.wellScoped
  have hkeeps' : Keeps f (as ++ bs) := keeps_append hclosed hkeeps fun b hb => (hbs b hb).timely
  refine ⟨wellScoped_app.mpr ⟨hkeeps', hf, ?_⟩, ?_, ?_, h.frames⟩
  · intro a ha
    exact (List.mem_append.mp ha).elim (has a) fun ha => (hbs a ha).wellScoped
  · intro x hx
    rcases free_append hclosed hx with hx | ⟨b, hb, hx⟩
    · exact h.bound x hx
    · exact (hbs b hb).bound x hx
  · intro x hx
    rcases late_append hclosed hx with hx | ⟨b, hb, hx⟩
    · exact h.timely x hx
    · exact (hbs b hb).timely x hx

theorem rebuilt {u v : Tree} (h : Ready stack u) (hv : Fit v) (has : ∀ a ∈ as, Ready stack a) :
    Ready stack (Evaluation.rebuild v as) := by
  unfold Evaluation.rebuild
  split
  · exact (h.of_fit hv).append has fun hu => absurd hu hv.finished
  · exact h.applied hv has

/-- Splicing an operator gives it more operands, again and again. -/
theorem spliced (h : Ready stack (.app f as)) : Ready stack (f.apply as) := by
  fun_induction apply f as with
  | case1 g bs as ih =>
      refine ih (h.operator.append ?_ fun hu b hb => h.closed_operand hu hb)
      intro b hb
      exact h.operand (not_binds_of_form (by simp) as) hb
  | case2 f as _ => exact h

end Ready

/-! ### Evaluation -/

/-- **A function needs no frames**: its operands are deferred, so none of their names may come from
outside. -/
theorem Ready.function {stack : Stack} {p b : Tree}
    (h : Ready stack (.app (.form .lambda) [p, b])) : Fit (.app (.form .lambda) [p, b]) := by
  refine ⟨?_, h.wellScoped, ?_⟩
  · intro x hx
    have hlate : (scoping (.form .lambda) [p, b]).binder? ≠ some x → ∀ a ∈ [p, b], ¬ Free x a :=
      fun hne a ha hfree => h.timely x (.here ⟨hne, a, .function ha, hfree⟩)
    rcases free_app_iff.mp hx with hx | ⟨a, ha, hx⟩ | ⟨hne, a, ha, hx⟩
    · cases hx
    · refine hlate ?_ a (mem_of_mem_outside ha) hx
      -- With a name for its parameter a function has nothing outside.
      by_cases hb : Binds (.form .lambda) [p, b]
      · obtain ⟨g, y, rest, hg, -, e⟩ := hb
        cases e
        cases ha
      · rw [scoping_of_not_binds hb]
        simp
    · exact hlate hne a (mem_of_mem_inside ha) hx
  · intro hu
    cases hu with
    | function hlength => simp at hlength

/-- **The call of a definition**: what the body is given is closed if the body lacks operands. -/
theorem Ready.definedCall {stack : Stack} {x : String} {v c w : Tree} {cs : List Tree}
    (h : Ready stack (.app (.form .delta) (.sym x :: v :: c :: cs))) (hw : Fit w) :
    Ready (Bracket.merge stack x w).1 (.app (substitute x w c) (substituteAll x w cs)) := by
  have hin : ∀ a ∈ c :: cs, Ready (Bracket.merge stack x w).1 (substitute x w a) :=
    fun a ha => h.inside rfl ha hw (Bracket.lookup?_merge stack x w)
  rw [substituteAll_eq_map]
  refine .app (hin c (by simp)) ?_ ?_
  · intro b hb
    obtain ⟨a, ha, rfl⟩ := List.mem_map.mp hb
    exact hin a (by simp [ha])
  · intro hu b hb y hy
    obtain ⟨a, ha, rfl⟩ := List.mem_map.mp hb
    have hdeferred : Deferred (.form .delta) (.sym x :: v :: c :: cs) a :=
      .call (unfinished_of_substitute hw hu) ha
    obtain ⟨hfree, hstranded⟩ := free_substitute hw hy
    by_cases hyx : y = x
    · have hkeeps := (wellScoped_app.mp h.wellScoped).1
      exact nomatch (hkeeps.deferred a hdeferred x (hstranded hyx)).1
    · refine h.timely y (.here ⟨?_, a, hdeferred, hfree⟩)
      simpa [scoping] using Ne.symm hyx

/-- **Evaluation leads from ready trees to ready trees**, and its values need no frames. -/
theorem invariant_ready : Invariant Ready Fit where
  tree h hv := h.of_fit hv
  bound {_ x v} h hx := h.of_fit (h.frames x v hx)
  leaf _ hsym hform happ _ := fit_leaf hsym happ fun g e => absurd e (hform g)
  nil := fit_leaf (by simp) (by simp) (by simp)
  ignore _ := fit_leaf (by simp) (by simp) (by simp [Form.binds])
  iota := by
    refine ⟨fun x hx => ?_, wellScoped_app.mpr ⟨⟨?_, ?_, ?_⟩, nodes_leaf (by simp), by simp⟩, ?_⟩
    · simp [free_app_iff, scoping] at hx
    · simp [scoping]
    · exact fun x => not_within_leaf (by simp)
    · intro b hb
      cases hb
    · intro hu
      cases hu
  function h := h.function
  operator h _ := h.operator
  operand h _ hf ha := h.operand (not_binds_of_form hf _) ha
  definedName h hn := h.operand (not_binds_of_sym hn _ _) (by simp)
  definedValue h := h.outside (by simp [scoping])
  definedBody {s x _ _ w} h hw :=
    h.inside rfl (List.mem_singleton_self _) hw (Bracket.lookup?_scope s x w)
  definedCall h _ hw := h.definedCall hw
  argument {_ p b as a} h ha := by
    by_cases hp : ∃ x, p = .sym x
    · obtain ⟨x, rfl⟩ := hp
      exact h.outside ha
    · exact h.operand (not_binds_of_sym (fun x e => hp ⟨x, e⟩) _ _) (by simp [ha])
  parameter h hp := h.operand (not_binds_of_sym hp _ _) (by simp)
  boundBody {s x _ _ w} h hw :=
    h.inside rfl (List.mem_singleton_self _) hw (Bracket.lookup?_scope s x w)
  plainBody h hp := h.operand (not_binds_of_sym hp _ _) (by simp)
  applied h hv has := h.applied hv has
  rebuilt h hv has := h.rebuilt hv has
  spliced h := h.spliced

end Tree

/-- **Closure capture.**  In a closed expression let no occurrence of a name be both late and
stranded.  Then evaluating it on an empty stack never ends with a name that is not bound. -/
theorem closure_capture {e : Tree} (hclosed : e.Closed) (hscoped : e.WellScoped) (limit : Nat)
    (name : String) : (evaluate limit [] e).outcome ≠ .fault (.unbound name) := by
  have hready : Tree.Ready [] e :=
    ⟨hscoped, fun x hx => absurd hx (hclosed x), fun x hx => hclosed x hx.free, nofun⟩
  have hgood := Tree.invariant_ready.evaluate limit hready
  intro h
  rw [Run.Good, h] at hgood
  -- The fault tells of a stack that holds the name and does not.
  obtain ⟨stack, hname, hnone⟩ := hgood
  obtain ⟨v, hv⟩ := hname.bound name .name
  rw [hnone] at hv
  cases hv

/-- `(ι (δ x Φ (δ x x (λ z x))) Φ)`: the `x` before the function is stranded and not late, the one
in it is late and not stranded. -/
def Tree.captured : Tree :=
  .app (.form .iota) [.app (.form .delta) [.sym "x", .nil, .app (.form .delta) [.sym "x", .sym "x",
    .app (.form .lambda) [.sym "z", .sym "x"]]], .nil]

/-- A form with leaves outside the scope that it opens, and leaves for deferred operands. -/
theorem Tree.wellScoped_form {g : Form} {as : List Tree}
    (hout : (scoping (.form g) as).binder? ≠ none →
      ∀ a ∈ (scoping (.form g) as).outside, ∀ f bs, a ≠ .app f bs)
    (hdeferred : ∀ a, Deferred (.form g) as a → ∀ f bs, a ≠ .app f bs)
    (has : ∀ a ∈ as, WellScoped a) : WellScoped (.app (.form g) as) := by
  refine wellScoped_app.mpr ⟨⟨?_, ?_, ?_⟩, nodes_leaf (by simp), has⟩
  · exact fun x hx a ha => not_within_leaf (hout (by simp [hx]) a ha)
  · exact fun x => not_within_leaf (by simp)
  · exact fun a ha x hx => absurd hx (not_within_leaf (hdeferred a ha))

theorem closure_capture_captured :
    Tree.parse "(ι (δ x Φ (δ x x (λ z x))) Φ)" = .ok .captured ∧ Tree.captured.Closed ∧
      Tree.captured.WellScoped ∧ (evaluate 9 [] .captured).outcome ≠ .fault (.unbound "x") := by
  have hclosed : Tree.captured.Closed := by
    intro x hx
    simp [Tree.captured, Tree.free_app_iff, Tree.scoping, Tree.free_sym_iff] at hx
    grind
  have hdelta : ∀ {n v c a : Tree}, ¬ Tree.Deferred (.form .delta) [n, v, c] a := by
    intro n v c a h
    cases h with
    | call _ h => cases h
  have hleaf : ∀ x, Tree.WellScoped (.sym x) := fun x => Tree.nodes_leaf (by simp)
  have hnil : Tree.WellScoped .nil := Tree.nodes_leaf (by simp)
  have hfunction : Tree.WellScoped (.app (.form .lambda) [.sym "z", .sym "x"]) := by
    refine Tree.wellScoped_form (by simp [Tree.scoping]) ?_ (by simp [hleaf])
    rintro a (h | _)
    simp at h
    rcases h with rfl | rfl <;> simp
  have hinner : Tree.WellScoped (.app (.form .delta) [.sym "x", .sym "x",
      .app (.form .lambda) [.sym "z", .sym "x"]]) :=
    Tree.wellScoped_form (by simp [Tree.scoping]) (fun _ h => absurd h hdelta)
      (by simp [hleaf, hfunction])
  have hscoped : Tree.captured.WellScoped := by
    refine Tree.wellScoped_form (by simp [Tree.scoping]) (fun _ h => by cases h) ?_
    simp only [List.forall_mem_cons]
    refine ⟨Tree.wellScoped_form (by simp [Tree.scoping]) (fun _ h => absurd h hdelta) ?_, hnil, ?_⟩
    · simp [hleaf, hnil, hinner]
    · simp
  have hparse : Tree.parse "(ι (δ x Φ (δ x x (λ z x))) Φ)" = .ok .captured := rfl
  exact ⟨hparse, hclosed, hscoped, closure_capture hclosed hscoped 9 "x"⟩

/-- `(ι (δ y Φ t) Φ)`: what `t` evaluates to is called when the frame of `y` is gone. -/
def Tree.escaping (t : Tree) : Tree :=
  .app (.form .iota) [.app (.form .delta) [.sym "y", .nil, t], .nil]

/-- `(λ z (λ y y y))`: the last `y` lies outside the scope of the `λ` before it. -/
def Tree.lostArgument : Tree :=
  .app (.form .lambda) [.sym "z", .app (.form .lambda) [.sym "y", .sym "y", .sym "y"]]

/-- `(λ z (δ y y y))`: the value `y` lies outside the scope of the `δ` before it. -/
def Tree.lostValue : Tree :=
  .app (.form .lambda) [.sym "z", .app (.form .delta) [.sym "y", .sym "y", .sym "y"]]

/-- `(δ y (λ z y) y)`: the function lies outside the scope of the `δ`. -/
def Tree.lostFunction : Tree :=
  .app (.form .delta) [.sym "y", .app (.form .lambda) [.sym "z", .sym "y"], .sym "y"]

/-- `(δ q Φ (λ z) (λ y y y))`: the last operand is yet to become the body of `(λ z)`. -/
def Tree.lostOperand : Tree :=
  .app (.form .delta) [.sym "q", .nil, .app (.form .lambda) [.sym "z"],
    .app (.form .lambda) [.sym "y", .sym "y", .sym "y"]]

/-- **Capture is incomplete** for closed expressions in general.  Replacing `y` stops at the inner
binder of `y`, and the `y` outside its scope is left to a frame that is gone when the function is
called. -/
theorem capture_incomplete :
    (Tree.parse "(ι (δ y Φ (λ z (λ y y y))) Φ)" = .ok (.escaping .lostArgument) ∧
      (Tree.escaping .lostArgument).Closed ∧
      (evaluate 9 [] (.escaping .lostArgument)).outcome = .fault (.unbound "y")) ∧
    (Tree.parse "(ι (δ y Φ (λ z (δ y y y))) Φ)" = .ok (.escaping .lostValue) ∧
      (Tree.escaping .lostValue).Closed ∧
      (evaluate 9 [] (.escaping .lostValue)).outcome = .fault (.unbound "y")) ∧
    (Tree.parse "(ι (δ y Φ (δ y (λ z y) y)) Φ)" = .ok (.escaping .lostFunction) ∧
      (Tree.escaping .lostFunction).Closed ∧
      (evaluate 9 [] (.escaping .lostFunction)).outcome = .fault (.unbound "y")) ∧
    (Tree.parse "(ι (δ y Φ (δ q Φ (λ z) (λ y y y))) Φ)" = .ok (.escaping .lostOperand) ∧
      (Tree.escaping .lostOperand).Closed ∧
      (evaluate 9 [] (.escaping .lostOperand)).outcome = .fault (.unbound "y")) := by
  refine ⟨⟨rfl, fun x hx => ?_, rfl⟩, ⟨rfl, fun x hx => ?_, rfl⟩, ⟨rfl, fun x hx => ?_, rfl⟩, rfl,
    fun x hx => ?_, rfl⟩
  · simp [Tree.escaping, Tree.lostArgument, Tree.free_app_iff, Tree.scoping, Tree.free_sym_iff] at hx
    grind
  · simp [Tree.escaping, Tree.lostValue, Tree.free_app_iff, Tree.scoping, Tree.free_sym_iff] at hx
    grind
  · simp [Tree.escaping, Tree.lostFunction, Tree.free_app_iff, Tree.scoping, Tree.free_sym_iff] at hx
    grind
  · simp [Tree.escaping, Tree.lostOperand, Tree.free_app_iff, Tree.scoping, Tree.free_sym_iff] at hx
    grind

end Curried
