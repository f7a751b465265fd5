import Curried.Proofs.Acceptance
import Curried.Proofs.Bracketing
import Curried.Proofs.RoundTrip

/-!
# Proofs — the faults of a source text

A source text ends with a value, too deep, or with a fault of one of seven families: lexical,
of the grammar, of a name that is not bound, of too few operands, of a tree that no rule accepts, of
a form that is reserved, or of a literal parameter (`text_ends_in_language`).  The families of
files and of the host program do not occur.

* `Scan.family_run`, `Tree.family_readAll`: lexing has lexical faults only, and reading the tokens of
  a text has faults of the grammar only.
* `Fault.Tells.family`: evaluation has faults of the other five families, as long as every tree that
  a message may have to show can be shown.
* `Tree.sourceless?_of_readable`: the trees of a text can be, since no value of the host is among
  their leaves.
* `Scopes.leave_enter`: releasing a binding after an evaluation never lacks the frame to remove.
-/

namespace Curried

/-- The families of the faults of the language. -/
inductive Fault.Family where
  | lexical
  | grammar
  | unbound
  | arity
  | shape
  | reserved
  | pattern
  | loading
deriving DecidableEq

/-- The family of a fault.  Those of the host program and its files have none, except for a file that
is not there. -/
def Fault.family? : Fault → Option Family
  | unreadable _ _ => some .lexical
  | unexpected _ | trailing _ | noOperator _ | endOfInput | endAfter _ | unclosed _ => some .grammar
  | unbound _ => some .unbound
  | defineArity _ | functionArity _ => some .arity
  | badName _ | badParameter _ | notFunction _ | bareForm _ | noValue => some .shape
  | reservedArrow | reservedExternal => some .reserved
  | mismatch _ _ => some .pattern
  | noFile _ => some .loading
  | _ => none

/-- The faults of the language are those with a family. -/
theorem Fault.ofLanguage_eq (f : Fault) : f.ofLanguage = f.family?.isSome := by
  cases f <;> rfl

/-! ### Lexing and reading -/

/-- The token of a lexeme is found, or the fault is lexical. -/
theorem Token.family_ofLexeme {l : List Char} {p : Position} {f : Fault}
    (h : Token.ofLexeme l p = .error f) : f.family? = some .lexical := by
  rw [Token.ofLexeme] at h
  split at h
  · cases h
  · split at h
    · cases h
    · cases h
      rfl

theorem Scan.family_flush {s : Scan} {f : Fault} (h : s.flush = .error f) :
    f.family? = some .lexical := by
  rw [flush] at h
  cases ht : Token.ofLexeme s.buffer.reverse s.start with
  | ok t => rw [ht] at h; cases h
  | error g =>
      rw [ht] at h
      cases h
      exact Token.family_ofLexeme ht

/-- **Lexing has lexical faults only.** -/
theorem Scan.family_run {s : Scan} {cs : List Char} {f : Fault} (h : (s.run cs).fault? = some f) :
    f.family? = some .lexical := by
  induction cs generalizing s with
  | nil =>
      rw [run] at h
      split at h
      · rename_i hflush
        cases h
        exact family_flush hflush
      · cases h
  | cons c cs ih =>
      rw [run] at h
      dsimp only at h
      split at h
      · split at h
        · rename_i hflush
          cases h
          exact family_flush hflush
        · exact ih h
      · exact ih h

theorem family_of_lex {source : String} {f : Fault} (h : (lex source).result = .error f) :
    f.family? = some .lexical := by
  rw [Lexed.result] at h
  split at h
  · rename_i hf
    cases h
    exact Scan.family_run hf
  · cases h

/-- **Reading has faults of the grammar only**, if every token has a place in the grammar. -/
theorem Tree.family_readAll {ts : List Token} (hts : ∀ t ∈ ts, t.Proper) {f : Fault}
    (h : (Tree.readAll ts).fault? = some f) : f.family? = some .grammar := by
  by_cases hreg : Token.Regular ts
  · obtain ⟨done, rest, rfl, hdone, rfl | ⟨o, ws, hopened⟩⟩ := Token.shape hreg
    · rw [List.append_nil] at hts h
      cases h.symm.trans (readAll_complete hdone hts).2
    · obtain ⟨start, rfl⟩ := hopened.exists_eq
      obtain ⟨ho, hlast⟩ := hopened.unclosed
      rw [← List.append_assoc] at hts hreg h
      have hfault := (readAll_unclosed hts hreg ho hlast).2
      rw [h] at hfault
      cases hfault
      split <;> rfl
  · obtain ⟨before, t, after, rfl, hbefore, hplaced⟩ := Token.exists_first_misplaced hreg
    obtain ⟨-, hunexpected, hempty⟩ := readAll_misplaced hts hbefore hplaced
    rcases hplaced.2 with hcount | hlast
    · cases h.symm.trans (hunexpected hcount)
      rfl
    · cases h.symm.trans (hempty hlast)
      rfl

/-! ### Trees that can be shown -/

namespace Tree

/-- No leaf is a value of the host. -/
def HostFree : Tree → Prop := Leaves fun t => ∀ h, t ≠ .host h

theorem Leaves.mono {L L' : Tree → Prop} (hL : ∀ {t}, L t → L' t) {t : Tree} (ht : Leaves L t) :
    Leaves L' t := by
  induction t using byApp with
  | leaf t h => exact (leaves_leaf h).mpr (hL ((leaves_leaf h).mp ht))
  | app f as ihf ihas =>
      obtain ⟨hf, has⟩ := leaves_app.mp ht
      exact leaves_app.mpr ⟨ihf hf, fun a ha => ihas a ha (has a ha)⟩

/-- Leaves that can be read are no values of the host. -/
theorem hostFree_of_readable {t : Tree} (ht : Leaves Readable t) : t.HostFree :=
  ht.mono fun {t} h g e => by subst e; exact h

/-- **A tree without values of the host can be shown.** -/
theorem HostFree.sourceless? {t : Tree} (ht : t.HostFree) : t.sourceless? = none := by
  induction t using byApp with
  | leaf t h =>
      have hleaf := (leaves_leaf h).mp ht
      cases t with
      | host g => exact absurd rfl (hleaf g)
      | app f as => exact absurd rfl (h f as)
      | num | text | nil | sym | form => rw [Tree.sourceless?] <;> simp
  | app f as ihf ihas =>
      obtain ⟨hf, has⟩ := leaves_app.mp ht
      have hnone : sourcelessIn? as = none := by
        rw [sourcelessIn?_eq_findSome?, List.findSome?_eq_none_iff]
        exact fun a ha => ihas a ha (has a ha)
      rw [Tree.sourceless?, ihf hf, hnone, Option.or_none]

theorem sourceless?_of_readable {t : Tree} (ht : Leaves Readable t) : t.sourceless? = none :=
  (hostFree_of_readable ht).sourceless?

end Tree

/-! ### Evaluation -/

/-- **Evaluation has faults of five families only**, if every tree it meets can be shown. -/
theorem Fault.Tells.family {G : Stack → Tree → Prop} {f : Fault} (h : f.Tells G)
    (hshown : ∀ {s t}, G s t → t.sourceless? = none) :
    f.family? ∈ [some .unbound, some .arity, some .shape, some .reserved, some .pattern] := by
  cases f with
  | unprintable g =>
      obtain ⟨s, t, ht, hg⟩ := h
      rw [hshown ht] at hg
      cases hg
  | unbound | defineArity | functionArity | badName | badParameter | mismatch | notFunction
  | bareForm | noValue | reservedArrow | reservedExternal => simp [family?]
  | unreadable | unexpected | trailing | noOperator | endOfInput | endAfter | unclosed | notText
  | tooNested | noFrame | outOfRange | noFile | noHome | nullInName | refused | notUtf8 | unknownLevel
  | limitTooGreat => exact False.elim h

namespace Session

variable {G : Stack → Tree → Prop} {V : Tree → Prop} (inv : Invariant G V)
include inv

theorem good_evalTree {limit : Nat} {stack : Stack} {t : Tree} (ht : G stack t) :
    (evalTree limit stack t).Good G V :=
  (inv.evaluate limit ht).andThen (restores_evaluate limit stack t) fun _ hv => .noting (.value hv) _

/-- **Expressions evaluated in turn** end as each of them may. -/
theorem good_evalAll {limit : Nat} {stack : Stack} {last : Tree} {trees : List Tree}
    (hlast : V last) (ht : ∀ t ∈ trees, G stack t) :
    (evalAll limit stack last trees).Good G V := by
  induction trees generalizing last with
  | nil => exact .value hlast
  | cons t trees ih =>
      rw [List.forall_mem_cons] at ht
      refine Run.Good.andThen (.noting (good_evalTree inv ht.1) _) ?_ fun v hv => ih hv ht.2
      rw [Run.stack_noting, stack_evalTree]

end Session

/-! ### Source texts -/

/-- How a source text may end: with a value that has no value of the host in it and so can be
shown, with a fault of the language that is not about files, or too deep. -/
def Outcome.InLanguage : Outcome → Prop
  | .value v => v.HostFree ∧ v.sourceless? = none
  | .fault f => ∃ family, f.family? = some family ∧ family ≠ .loading
  | .tooDeep => True

/-- A run that moves readable leaves around ends in the language. -/
theorem Run.Good.inLanguage {r : Run}
    (h : r.Good (fun s t => s.Keeps (Tree.Leaves Tree.Readable) ∧ Tree.Leaves Tree.Readable t)
      (Tree.Leaves Tree.Readable)) : r.outcome.InLanguage := by
  rw [Run.Good] at h
  split at h
  · rename_i v hv
    rw [hv]
    exact ⟨Tree.hostFree_of_readable h, Tree.sourceless?_of_readable h⟩
  · rename_i f hf
    rw [hf]
    have hfamily := h.family fun ht => Tree.sourceless?_of_readable ht.2
    simp only [List.mem_cons, List.not_mem_nil, or_false] at hfamily
    rcases hfamily with e | e | e | e | e <;> exact ⟨_, e, by simp⟩
  · rename_i ht
    rw [ht]
    trivial

/-- **A source text ends in the language**, on a stack that binds readable values to readable
names. -/
theorem Session.inLanguage_eval (limit : Nat) {stack : Stack}
    (hs : stack.Keeps (Tree.Leaves Tree.Readable)) (source : String) :
    (Session.eval limit stack source).outcome.InLanguage := by
  rw [eval]
  split
  · rename_i f hl
    exact ⟨.lexical, family_of_lex hl, by simp⟩
  · rename_i tokens hl
    have inv := Tree.invariant_leaves (L := Tree.Readable) trivial trivial trivial
    have hread := Tree.fits_readAll (Tree.grammar_leaves trivial) (Tree.fits_readable hl)
    have hgood : (evalAll limit stack .nil (Tree.readAll tokens).trees).Good _ _ :=
      good_evalAll inv inv.nil fun t ht => ⟨hs, hread t ht⟩
    have hends := hgood.inLanguage
    dsimp only [Run.andThen]
    split
    · -- The expressions that could be read have a value, so what was read last decides.
      rename_i v hv
      rw [hv] at hends
      split
      · rename_i f hf
        exact ⟨.grammar, Tree.family_readAll (proper_of_lex hl) hf, by simp⟩
      · exact hends
    · exact hends

/-! ### Releasing -/

/-- The stack and the brackets after an evaluation on it. -/
def Scopes.evaluating (limit : Nat) (s : Scopes) (t : Tree) : Scopes :=
  { s with stack := (evaluate limit s.stack t).stack }

theorem Scopes.evaluating_eq (limit : Nat) (s : Scopes) (t : Tree) : s.evaluating limit t = s := by
  rw [evaluating, restores_evaluate limit s.stack t]

/-- **Releasing a binding finds its frame**, whatever has been evaluated under it. -/
theorem Scopes.leave_enter (limit : Nat) (stack : Stack) (x : String) (v t : Tree) :
    (((ofStack stack).enter (Bracket.scope stack x v)).evaluating limit t).leave =
        (none, ofStack stack) ∧
      (((ofStack stack).enter (Bracket.merge stack x v)).evaluating limit t).leave =
        (none, ofStack stack) := by
  have hground : (ofStack stack).Grounded := grounded_entered stack []
  rw [evaluating_eq, evaluating_eq]
  exact ⟨hground.leave_enter ⟨.scope, x, v⟩, hground.leave_enter ⟨.merge, x, v⟩⟩

/-- **A source text ends in the language.**  On a fresh session it has a value without values of the
host, or goes too deep, or has a fault of one of seven families; so neither a message nor the value
itself ever fails to be shown.  And no binding that is made on the way lacks its frame when it is
released. -/
theorem text_ends_in_language (limit : Nat) (source : String) :
    (Session.eval limit [] source).outcome.InLanguage ∧
    ∀ stack x v t,
      (((Scopes.ofStack stack).enter (Bracket.scope stack x v)).evaluating limit t).leave =
          (none, .ofStack stack) ∧
        (((Scopes.ofStack stack).enter (Bracket.merge stack x v)).evaluating limit t).leave =
          (none, .ofStack stack) :=
  ⟨Session.inLanguage_eval limit .empty source, Scopes.leave_enter limit⟩

end Curried
