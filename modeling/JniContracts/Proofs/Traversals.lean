import JniContracts.Proofs.EnclosingLoops
import Mathlib.Data.List.Perm.Basic

/-!
Two ways to go through the expressions of a statement: by the statements in it, each with the
expressions that it is said to evaluate itself, and by its elements. They meet the same expressions
but for the condition and the last clause of each `for`. These stand in no statement of their own,
and only the elements have them, so a statement that clears a pending exception in such a clause is
not seen to clear it.
-/

namespace JniContracts

namespace Stmt

def loopClauses : Stmt → List Expr
  | forDo _ c t _ _ => c.toList ++ t.toList
  | _ => []

theorem walkAll_eq_flatMap (ss : List Stmt) : walkAll ss = ss.flatMap walk := by
  induction ss with
  | nil => rfl
  | cons s ss ih => rw [walkAll, ih, List.flatMap_cons]

theorem walk_eq_children (s : Stmt) : s.walk = s :: s.children.flatMap walk := by
  cases s with
  | block ss p => rw [walk, walkAll_eq_flatMap]; rfl
  | ifElse c a b p => cases b <;> simp [walk, walkElse, children]
  | forDo i c t b p => cases i <;> simp [walk, children]
  | _ => simp [walk, children]

end Stmt

namespace Element

def isLoopClause (e : Element) : Bool :=
  match e.stmt with
  | .forDo .. => true
  | _ => false

end Element

namespace Located

def outer (l : Located) : List Element := l.own ++ (l.condition ++ l.advance)

def inner (l : Located) : List Element :=
  match l.stmt with
  | .block ss _ => Stmt.elementsOfAll (l.up ++ [l.stmt]) l.addr 0 ss
  | .ifElse _ a b _ =>
    (l.child 0 a).elements ++ Stmt.elementsOfElse (l.up ++ [l.stmt]) (l.addr ++ [1]) b
  | .whileDo _ b _ | .doWhile b _ _ | .switch _ b _ | .case _ b _ | .label _ b _ =>
    (l.child 0 b).elements
  | .forDo i _ _ b _ =>
    i.toList.map (fun x => (l.child 0 (.simple x)).element .init x.exprs) ++ (l.child 1 b).elements
  | _ => []

theorem elements_perm (l : Located) : l.elements.Perm (l.outer ++ l.inner) := by
  obtain ⟨up, addr, s⟩ := l
  cases s with
  | doWhile b c p => exact List.perm_append_comm
  | forDo i c t b p =>
    have hclauses : ∀ first cond body last : List Element,
        (first ++ cond ++ body ++ last).Perm (cond ++ last ++ (first ++ body)) := by
      intro first cond body last
      calc first ++ cond ++ body ++ last
        _ |>.Perm (cond ++ first ++ body ++ last) :=
          (List.perm_append_comm.append_right _).append_right _
        _ = cond ++ (first ++ body ++ last) := by simp only [List.append_assoc]
        _ |>.Perm (cond ++ (last ++ (first ++ body))) := List.perm_append_comm.append_left _
        _ = cond ++ last ++ (first ++ body) := by simp only [List.append_assoc]
    cases t <;> exact hclauses _ _ _ _
  | _ => exact .refl _

end Located

/-- What is gathered from the elements of a statement itself is what is gathered from the statement;
the first clause of a `for` is a statement by itself. -/
structure Corresponds {β : Type} (g : Element → List β) (u : Stmt → List β) : Prop where
  outer : ∀ l : Located, (l.outer.flatMap g).Perm (u l.stmt)
  first : ∀ (l : Located) (x : Simple), l.stmt = .simple x →
    (g (l.element .init x.exprs)).Perm (u (.simple x))

namespace Corresponds

variable {β : Type} {g : Element → List β} {u : Stmt → List β}

theorem all (up : List Stmt) (addr : Address) {ss : List Stmt} {n : Nat}
    (h : ∀ (k : Nat) (s : Stmt), ss[k]? = some s →
      ((s.elementsIn up (addr ++ [n + k])).flatMap g).Perm (s.walk.flatMap u)) :
    ((Stmt.elementsOfAll up addr n ss).flatMap g).Perm ((ss.flatMap Stmt.walk).flatMap u) := by
  induction ss generalizing n with
  | nil => exact .nil
  | cons s ss ih =>
    rw [Stmt.elementsOfAll, List.flatMap_cons, List.flatMap_append, List.flatMap_append]
    refine (h 0 s rfl).append (ih fun k t ht => ?_)
    rw [Nat.add_assoc, Nat.add_comm 1 k]
    exact h (k + 1) t ht

theorem inner (h : Corresponds g u) {l : Located}
    (ih : ∀ n c, l.stmt.Part n c → ((l.child n c).elements.flatMap g).Perm (c.walk.flatMap u)) :
    (l.inner.flatMap g).Perm ((l.stmt.children.flatMap Stmt.walk).flatMap u) := by
  obtain ⟨up, addr, s⟩ := l
  -- the only statement in another one
  have hone : ∀ n c, s.Part n c → ((Located.child ⟨up, addr, s⟩ n c).elements.flatMap g).Perm
      (([c].flatMap Stmt.walk).flatMap u) := by
    intro n c hc
    rw [List.flatMap_singleton]
    exact ih n c hc
  cases s with
  | block ss p =>
    refine all _ _ fun k s hs => ?_
    rw [Nat.zero_add]
    exact ih k s (.block hs)
  | ifElse c a b p =>
    rw [Located.inner, Stmt.children, List.flatMap_append, List.flatMap_cons, List.flatMap_append]
    refine (ih 0 a .yes).append ?_
    cases b with
    | none => exact .nil
    | some b => exact hone 1 b .no
  | forDo i c t b p =>
    rw [Located.inner, Stmt.children, List.flatMap_append, List.flatMap_append, List.flatMap_append]
    refine .append ?_ (hone 1 b .forDo)
    cases i with
    | none => exact .nil
    | some x =>
      simpa [Stmt.walk]
        using h.first (Located.child ⟨up, addr, .forDo (some x) c t b p⟩ 0 (.simple x)) x rfl
  | whileDo c b p => exact hone 0 b .whileDo
  | doWhile b c p => exact hone 0 b .doWhile
  | switch c b p => exact hone 0 b .switch
  | case v b p => exact hone 0 b .case
  | label name b p => exact hone 0 b .label
  | _ => exact .nil

/-- What is gathered element by element is what is gathered statement by statement. -/
theorem elements (h : Corresponds g u) (l : Located) :
    (l.elements.flatMap g).Perm (l.stmt.walk.flatMap u) := by
  induction l using Located.part_induction with
  | step l ih =>
    rw [Stmt.walk_eq_children, List.flatMap_cons]
    refine (l.elements_perm.flatMap_right g).trans ?_
    rw [List.flatMap_append]
    exact (h.outer l).append (h.inner ih)

end Corresponds

section Own

attribute [local simp] Located.outer Located.own Located.condition Located.advance Located.element
  Stmt.control? Element.isLoopClause Stmt.exprs Stmt.loopClauses

theorem corresponds_clauses (inFor : Bool) :
    Corresponds (fun e => if e.isLoopClause == inFor then e.exprs else [])
      fun s => if inFor then s.loopClauses else s.exprs where
  outer l := by
    obtain ⟨up, addr, s⟩ := l
    cases inFor <;> cases s with
    | forDo i c t b p => cases c <;> cases t <;> exact .refl _
    | simple x => simp
    | ret v p => cases v <;> exact .refl _
    | _ => exact .refl _
  first l x hx := by cases inFor <;> simp [hx]

end Own

theorem flatMap_filter {p : Element → Bool} (es : List Element) :
    (es.filter p).flatMap Element.exprs = es.flatMap fun e => if p e then e.exprs else [] := by
  induction es with
  | nil => rfl
  | cons e es ih => cases h : p e <;> simp [h, ih]

namespace Stmt

theorem walk_clauses_perm (s : Stmt) (inFor : Bool) :
    ((s.elements.filter fun e => e.isLoopClause == inFor).flatMap Element.exprs).Perm
      (s.walk.flatMap fun t => if inFor then t.loopClauses else t.exprs) := by
  rw [flatMap_filter]
  exact (corresponds_clauses inFor).elements ⟨[], [], s⟩

theorem walk_exprs_perm (s : Stmt) :
    ((s.elements.filter fun e => !e.isLoopClause).flatMap Element.exprs).Perm
      (s.walk.flatMap Stmt.exprs) := by
  simpa using s.walk_clauses_perm false

theorem walk_loopClauses_perm (s : Stmt) :
    ((s.elements.filter Element.isLoopClause).flatMap Element.exprs).Perm
      (s.walk.flatMap loopClauses) := by
  simpa using s.walk_clauses_perm true

theorem evaluated_perm (s : Stmt) :
    s.evaluated.Perm (s.walk.flatMap loopClauses ++ s.walk.flatMap Stmt.exprs) := by
  have hparts :=
    (List.filter_append_perm Element.isLoopClause s.elements).symm.flatMap_right Element.exprs
  rw [List.flatMap_append] at hparts
  exact hparts.trans (s.walk_loopClauses_perm.append s.walk_exprs_perm)

theorem evaluated_perm_iff (s : Stmt) :
    s.evaluated.Perm (s.walk.flatMap Stmt.exprs) ↔ ∀ t ∈ s.walk, t.loopClauses = [] := by
  rw [← List.flatMap_eq_nil_iff]
  constructor
  · intro h
    have hlength := (s.evaluated_perm.symm.trans h).length_eq
    rw [List.length_append] at hlength
    exact List.eq_nil_of_length_eq_zero (by omega)
  · intro h
    have hall := s.evaluated_perm
    rwa [h, List.nil_append] at hall

end Stmt

theorem Settings.clears_iff (settings : Settings) (s : Stmt) :
    settings.clears s = true ↔ ∃ e ∈ s.elements, e.isLoopClause = false ∧
    (e.calls.any fun c => c.calls settings.exceptionClear) = true := by
  have hwalk : settings.clears s =
      (s.walk.flatMap Stmt.exprs).any fun x => x.calls.any (·.calls settings.exceptionClear) := by
    rw [Settings.clears, List.any_flatMap]
  rw [hwalk, ← s.walk_exprs_perm.any_eq]
  simp [Element.calls]

namespace Stmt

/-- The expressions that the statements in a statement evaluate are those of its elements other than
conditions and last clauses of `for` loops, each as often; the expressions of those are the clauses
that the walk leaves out. So the two traversals meet the same expressions just if no `for` has such
a clause, and a statement is seen to clear a pending exception just if an element that is no such
clause calls for it. -/
theorem traversals_part_at_loopClauses (settings : Settings) (s : Stmt) :
    ((s.elements.filter fun e => !e.isLoopClause).flatMap Element.exprs).Perm
      (s.walk.flatMap Stmt.exprs) ∧
    ((s.elements.filter Element.isLoopClause).flatMap Element.exprs).Perm
      (s.walk.flatMap loopClauses) ∧
    (s.evaluated.Perm (s.walk.flatMap Stmt.exprs) ↔ ∀ t ∈ s.walk, t.loopClauses = []) ∧
    (settings.clears s = true ↔ ∃ e ∈ s.elements, e.isLoopClause = false ∧
      (e.calls.any fun c => c.calls settings.exceptionClear) = true) :=
  ⟨s.walk_exprs_perm, s.walk_loopClauses_perm, s.evaluated_perm_iff, settings.clears_iff s⟩

/-- `for (;; env->ExceptionClear()) ;` -/
def clearing : Stmt :=
  forDo none none (some (.call (.member (.name "env" ⟨1, 9⟩) "ExceptionClear" true ⟨1, 9⟩) [] true
    ⟨1, 9⟩)) (empty ⟨1, 32⟩) ⟨1, 1⟩

/-- The last clause of the loop is an element that clears a pending exception, and no statement
evaluates it. -/
theorem clearing_in_last_clause :
    ¬ clearing.evaluated.Perm (clearing.walk.flatMap Stmt.exprs) ∧
    (clearing.elements.any fun e => e.calls.any fun c => c.calls Settings.standard.exceptionClear) =
      true ∧ Settings.standard.clears clearing = false := by
  refine ⟨fun h => ?_, by decide, by decide⟩
  have hlength := h.length_eq
  simp [evaluated, elements, clearing, elementsIn, walk, Stmt.exprs] at hlength

end Stmt

end JniContracts
