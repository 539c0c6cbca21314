import JniContracts.Flow.Build
import JniContracts.Proofs.Spelling.Places

/-!
Statements and functions in the uniform form. Everything that is asked about a statement, its
elements and the statements in it has the same answer for the uniform form.
-/

namespace JniContracts

def Declarator.uniform (d : Declarator) : Declarator :=
  ⟨d.name, d.pos.flat, d.values.map Expr.uniform⟩

def Simple.uniform : Simple → Simple
  | expr e p => expr e.uniform p.flat
  | decl t ds p => decl t (ds.map Declarator.uniform) p.flat

namespace Stmt

mutual
def uniform : Stmt → Stmt
  | block ss p => block (uniformAll ss) p.flat
  | simple x => simple x.uniform
  | ifElse c a b p => ifElse c.uniform a.uniform (uniformElse b) p.flat
  | whileDo c b p => whileDo c.uniform b.uniform p.flat
  | doWhile b c p => doWhile b.uniform c.uniform p.flat
  | forDo i c t b p =>
    forDo (i.map Simple.uniform) (c.map Expr.uniform) (t.map Expr.uniform) b.uniform p.flat
  | switch c b p => switch c.uniform b.uniform p.flat
  | case v b p => case (v.map Expr.uniform) b.uniform p.flat
  | label n b p => label n b.uniform p.flat
  | goto l p => goto l p.flat
  | ret v p => ret (v.map Expr.uniform) p.flat
  | brk p => brk p.flat
  | cont p => cont p.flat
  | empty p => empty p.flat

def uniformAll : List Stmt → List Stmt
  | [] => []
  | s :: ss => s.uniform :: uniformAll ss

def uniformElse : Option Stmt → Option Stmt
  | none => none
  | some s => some s.uniform
end

end Stmt

section Alike

structure Declarator.Alike (d d' : Declarator) : Prop where
  name : d.name = d'.name
  line : d.pos.line = d'.pos.line
  values : List.Forall₂ Expr.Alike d.values d'.values

inductive Simple.Alike : Simple → Simple → Prop where
  | expr {e e' p p'} (hp : p.line = p'.line) (he : e.Alike e') :
      Simple.Alike (.expr e p) (.expr e' p')
  | decl {t ds ds' p p'} (hp : p.line = p'.line) (hds : List.Forall₂ Declarator.Alike ds ds') :
      Simple.Alike (.decl t ds p) (.decl t ds' p')

namespace Stmt

/-- Statements that differ only in how interface calls are spelled, and in columns. -/
inductive Alike : Stmt → Stmt → Prop where
  | block {ss ss' p p'} (hp : p.line = p'.line) (hlen : ss.length = ss'.length)
      (hss : ∀ s ∈ ss.zip ss', Alike s.1 s.2) : Alike (block ss p) (block ss' p')
  | simple {x x'} (hx : x.Alike x') : Alike (simple x) (simple x')
  | ifOnly {c c' a a' p p'} (hp : p.line = p'.line) (hc : c.Alike c') (ha : Alike a a') :
      Alike (ifElse c a none p) (ifElse c' a' none p')
  | ifElse {c c' a a' b b' p p'} (hp : p.line = p'.line) (hc : c.Alike c') (ha : Alike a a')
      (hb : Alike b b') : Alike (ifElse c a (some b) p) (ifElse c' a' (some b') p')
  | whileDo {c c' b b' p p'} (hp : p.line = p'.line) (hc : c.Alike c') (hb : Alike b b') :
      Alike (whileDo c b p) (whileDo c' b' p')
  | doWhile {b b' c c' p p'} (hp : p.line = p'.line) (hb : Alike b b') (hc : c.Alike c') :
      Alike (doWhile b c p) (doWhile b' c' p')
  | forDo {i i' c c' t t' b b' p p'} (hp : p.line = p'.line) (hi : Option.Rel Simple.Alike i i')
      (hc : Option.Rel Expr.Alike c c') (ht : Option.Rel Expr.Alike t t') (hb : Alike b b') :
      Alike (forDo i c t b p) (forDo i' c' t' b' p')
  | switch {c c' b b' p p'} (hp : p.line = p'.line) (hc : c.Alike c') (hb : Alike b b') :
      Alike (switch c b p) (switch c' b' p')
  | case {v v' b b' p p'} (hp : p.line = p'.line) (hv : Option.Rel Expr.Alike v v')
      (hb : Alike b b') : Alike (case v b p) (case v' b' p')
  | label {n b b' p p'} (hp : p.line = p'.line) (hb : Alike b b') :
      Alike (label n b p) (label n b' p')
  | goto {l p p'} (hp : p.line = p'.line) : Alike (goto l p) (goto l p')
  | ret {v v' p p'} (hp : p.line = p'.line) (hv : Option.Rel Expr.Alike v v') :
      Alike (ret v p) (ret v' p')
  | brk {p p'} (hp : p.line = p'.line) : Alike (brk p) (brk p')
  | cont {p p'} (hp : p.line = p'.line) : Alike (cont p) (cont p')
  | empty {p p'} (hp : p.line = p'.line) : Alike (empty p) (empty p')

end Stmt

structure Function.Alike (f f' : Function) : Prop where
  name : f.name = f'.name
  params : f.params = f'.params
  locals : f.locals = f'.locals
  line : f.pos.line = f'.pos.line
  body : f.body.Alike f'.body

theorem flat_eq {p p' : Pos} (h : p.line = p'.line) : p.flat = p'.flat := by
  rw [Pos.flat, Pos.flat, h]

theorem Declarator.Alike.uniform_eq {d d' : Declarator} (h : d.Alike d') :
    d.uniform = d'.uniform := by
  rw [Declarator.uniform, Declarator.uniform, h.name, flat_eq h.line,
    map_congr_of_forall₂ h.values fun _ _ => Expr.Alike.uniform_eq]

theorem Simple.Alike.uniform_eq {x x' : Simple} (h : x.Alike x') : x.uniform = x'.uniform := by
  cases h with
  | expr hp he => rw [Simple.uniform, Simple.uniform, he.uniform_eq, flat_eq hp]
  | decl hp hds =>
    rw [Simple.uniform, Simple.uniform,
      map_congr_of_forall₂ hds fun _ _ => Declarator.Alike.uniform_eq, flat_eq hp]

namespace Stmt

theorem uniformAll_eq (ss : List Stmt) : uniformAll ss = ss.map uniform := by
  induction ss with
  | nil => rfl
  | cons s ss ih => rw [uniformAll, ih, List.map_cons]

theorem Alike.uniform_eq {s s' : Stmt} (h : Alike s s') : s.uniform = s'.uniform := by
  induction h with
  | block hp hlen _ ih => simp only [uniform, uniformAll_eq, map_congr_of_zip hlen ih, flat_eq hp]
  | simple hx => rw [uniform, uniform, hx.uniform_eq]
  | forDo hp hi hc ht _ ihb =>
    simp only [uniform, map_congr_of_rel hi fun _ _ => Simple.Alike.uniform_eq,
      map_congr_of_rel hc fun _ _ => Expr.Alike.uniform_eq,
      map_congr_of_rel ht fun _ _ => Expr.Alike.uniform_eq, ihb, flat_eq hp]
  | case hp hv _ ih =>
    simp only [uniform, map_congr_of_rel hv fun _ _ => Expr.Alike.uniform_eq, ih, flat_eq hp]
  | ret hp hv =>
    simp only [uniform, map_congr_of_rel hv fun _ _ => Expr.Alike.uniform_eq, flat_eq hp]
  | ifOnly hp hc _ ih | whileDo hp hc _ ih | switch hp hc _ ih | doWhile hp _ hc ih =>
    simp only [uniform, uniformElse, hc.uniform_eq, ih, flat_eq hp]
  | ifElse hp hc _ _ iha ihb =>
    simp only [uniform, uniformElse, hc.uniform_eq, iha, ihb, flat_eq hp]
  | label hp _ ih => simp only [uniform, ih, flat_eq hp]
  | goto hp | brk hp | cont hp | empty hp => simp only [uniform, flat_eq hp]

end Stmt

end Alike

theorem Declarator.assignments_uniform (d : Declarator) :
    d.uniform.assignments = d.assignments.map Expr.uniform := by
  rw [assignments, assignments, uniform, List.map_map, List.map_map]
  rfl

theorem Simple.exprs_uniform (x : Simple) : x.uniform.exprs = x.exprs.map Expr.uniform := by
  cases x with
  | expr e p => rfl
  | decl t ds p =>
    rw [uniform, exprs, exprs, List.flatMap_map, List.map_flatMap]
    simp only [Declarator.assignments_uniform]

def Element.uniform (e : Element) : Element :=
  ⟨e.address, e.stmt.uniform, e.role, e.exprs.map Expr.uniform, e.ancestors.map Stmt.uniform⟩

namespace Stmt

section Parts

theorem exprs_uniform (s : Stmt) : s.uniform.exprs = s.exprs.map Expr.uniform := by
  cases s with
  | simple x => exact x.exprs_uniform
  | ret v p => cases v <;> rfl
  | _ => rfl

theorem isLoop_uniform (s : Stmt) : s.uniform.isLoop = s.isLoop := by
  cases s <;> rfl

theorem line_uniform (s : Stmt) : s.uniform.line = s.line := by
  cases s with
  | simple x => cases x <;> rfl
  | _ => rfl

mutual
theorem walk_uniform : (s : Stmt) → s.uniform.walk = s.walk.map uniform
  | block ss p => by simp only [uniform, walk, walkAll_uniform ss, List.map_cons]
  | ifElse c a b p => by
    simp only [uniform, walk, walk_uniform a, walkElse_uniform b, List.map_cons, List.map_append]
  | whileDo c b p => by simp only [uniform, walk, walk_uniform b, List.map_cons]
  | doWhile b c p => by simp only [uniform, walk, walk_uniform b, List.map_cons]
  | forDo i c t b p => by
    cases i <;> simp only [uniform, walk, walk_uniform b, List.map_cons, List.map_append,
      Option.map_some, Option.map_none, Option.toList_some, Option.toList_none, List.map_nil]
  | switch c b p => by simp only [uniform, walk, walk_uniform b, List.map_cons]
  | case v b p => by simp only [uniform, walk, walk_uniform b, List.map_cons]
  | label n b p => by simp only [uniform, walk, walk_uniform b, List.map_cons]
  | simple x => rfl
  | goto .. | ret .. | brk _ | cont _ | empty _ => rfl

theorem walkAll_uniform : (ss : List Stmt) → walkAll (uniformAll ss) = (walkAll ss).map uniform
  | [] => rfl
  | s :: ss => by
    simp only [uniformAll, walkAll, walk_uniform s, walkAll_uniform ss, List.map_append]

theorem walkElse_uniform : (o : Option Stmt) → walkElse (uniformElse o) = (walkElse o).map uniform
  | none => rfl
  | some s => walk_uniform s
end

mutual
theorem elementsIn_uniform : (s : Stmt) → (up : List Stmt) → (addr : Address) →
    s.uniform.elementsIn (up.map uniform) addr = (s.elementsIn up addr).map Element.uniform
  | block ss p, up, addr => by
    have hss := elementsOfAll_uniform ss (up ++ [block ss p]) addr 0
    rw [List.map_append] at hss
    exact hss
  | simple x, up, addr => by
    simp only [uniform, elementsIn, Simple.exprs_uniform]
    rfl
  | ifElse c a b p, up, addr => by
    have ha := elementsIn_uniform a (up ++ [ifElse c a b p]) (addr ++ [0])
    have hb := elementsOfElse_uniform b (up ++ [ifElse c a b p]) (addr ++ [1])
    rw [List.map_append] at ha hb
    rw [elementsIn, List.map_cons, List.map_append, ← ha, ← hb]
    rfl
  | whileDo c b p, up, addr => by
    have hb := elementsIn_uniform b (up ++ [whileDo c b p]) (addr ++ [0])
    rw [List.map_append] at hb
    rw [elementsIn, List.map_cons, ← hb]
    rfl
  | doWhile b c p, up, addr => by
    have hb := elementsIn_uniform b (up ++ [doWhile b c p]) (addr ++ [0])
    rw [List.map_append] at hb
    rw [elementsIn, List.map_append, ← hb]
    rfl
  | forDo i c t b p, up, addr => by
    have hb := elementsIn_uniform b (up ++ [forDo i c t b p]) (addr ++ [1])
    rw [List.map_append] at hb
    rw [elementsIn]
    simp only [List.map_append, ← hb]
    cases i <;> cases c <;> cases t <;>
      simp [uniform, elementsIn, Simple.exprs_uniform, Element.uniform]
  | switch c b p, up, addr => by
    have hb := elementsIn_uniform b (up ++ [switch c b p]) (addr ++ [0])
    rw [List.map_append] at hb
    rw [elementsIn, List.map_cons, ← hb]
    rfl
  | case v b p, up, addr => by
    have hb := elementsIn_uniform b (up ++ [case v b p]) (addr ++ [0])
    rw [List.map_append] at hb
    exact hb
  | label n b p, up, addr => by
    have hb := elementsIn_uniform b (up ++ [label n b p]) (addr ++ [0])
    rw [List.map_append] at hb
    exact hb
  | ret v p, up, addr => by cases v <;> rfl
  | goto .., _, _ | brk _, _, _ | cont _, _, _ | empty _, _, _ => rfl

theorem elementsOfAll_uniform :
    (ss : List Stmt) → (up : List Stmt) → (addr : Address) → (n : Nat) →
    elementsOfAll (up.map uniform) addr n (uniformAll ss) =
      (elementsOfAll up addr n ss).map Element.uniform
  | [], _, _, _ => rfl
  | s :: ss, up, addr, n => by
    simp only [uniformAll, elementsOfAll, elementsIn_uniform s, elementsOfAll_uniform ss,
      List.map_append]

theorem elementsOfElse_uniform :
    (o : Option Stmt) → (up : List Stmt) → (addr : Address) →
    elementsOfElse (up.map uniform) addr (uniformElse o) =
      (elementsOfElse up addr o).map Element.uniform
  | none, _, _ => rfl
  | some s, up, addr => elementsIn_uniform s up addr
end

theorem elements_uniform (s : Stmt) : s.uniform.elements = s.elements.map Element.uniform :=
  elementsIn_uniform s [] []

theorem evaluated_uniform (s : Stmt) : s.uniform.evaluated = s.evaluated.map Expr.uniform := by
  rw [evaluated, evaluated, elements_uniform, List.flatMap_map, List.map_flatMap]
  rfl

end Parts

end Stmt

theorem Call.calls_uniform (c : Call) (names : List String) :
    c.uniform.calls names = c.calls names := by
  rw [Call.calls, Call.calls, c.callee?_uniform]

theorem Settings.isHazard_uniform (s : Settings) (c : Call) :
    s.isHazard c.uniform = s.isHazard c := by
  rw [isHazard, isHazard, c.viaInterface_uniform, c.callee?_uniform]

namespace Expr

theorem callsOne_uniform (names : List String) (es : List Expr) :
    ((es.map uniform).any fun e => e.calls.any (·.calls names)) =
    es.any fun e => e.calls.any (·.calls names) := by
  rw [List.any_map]
  exact any_congr_of_mem fun e _ => any_calls_uniform (fun c => c.calls_uniform names) e

theorem any_names_uniform (q : String → Bool) (es : List Expr) :
    (((es.map uniform).flatMap walk).filterMap name?).any q =
    ((es.flatMap walk).filterMap name?).any q := by
  have hany : ∀ l : List Expr, (l.filterMap name?).any q = l.any fun x => x.name?.any q := by
    intro l
    rw [Bool.eq_iff_iff, List.any_eq_true, List.any_eq_true]
    simp only [List.mem_filterMap, Option.any_eq_true]
    grind
  rw [hany, hany, List.any_flatMap, List.any_flatMap, List.any_map]
  refine any_congr_of_mem fun e _ => any_walk_uniform (Q := q) (fun e => by rw [name?_uniform])
    (fun e _ => rfl) e

end Expr

namespace Stmt

section Questions

variable (s : Settings)

theorem isTerminator_uniform (x : Stmt) : s.isTerminator x.uniform = s.isTerminator x := by
  cases x with
  | simple x =>
    cases x with
    | expr e p =>
      simp only [uniform, Simple.uniform, Settings.isTerminator, Expr.strip_uniform,
        Expr.call?_uniform]
      cases e.strip.call? with
      | none => rfl
      | some c => simp only [Option.map_some, Call.viaInterface_uniform, Call.calls_uniform]
    | decl t ds p => rfl
  | _ => rfl

theorem terminates_uniform (x : Stmt) : s.terminates x.uniform = s.terminates x := by
  rw [Settings.terminates, Settings.terminates, walk_uniform, List.any_map]
  exact any_congr_of_mem fun part _ => isTerminator_uniform s part

theorem clears_uniform (x : Stmt) : s.clears x.uniform = s.clears x := by
  rw [Settings.clears, Settings.clears, walk_uniform, List.any_map]
  refine any_congr_of_mem fun part _ => ?_
  rw [Function.comp_apply, exprs_uniform]
  exact Expr.callsOne_uniform s.exceptionClear part.exprs

def declared : Stmt → List String
  | simple (.decl _ ds _) => ds.map (·.name)
  | _ => []

theorem declared_uniform (x : Stmt) : x.uniform.declared = x.declared := by
  cases x with
  | simple x =>
    cases x with
    | expr e p => rfl
    | decl t ds p =>
      simp only [uniform, Simple.uniform, declared, List.map_map]
      rfl
  | _ => rfl

theorem modified_eq (x : Stmt) :
    x.modified = (x.evaluated.flatMap Expr.modified ++ x.walk.flatMap declared).eraseDups :=
  rfl

theorem contains_modified_uniform (x : Stmt) (var : String) :
    x.uniform.modified.contains var = x.modified.contains var := by
  have hmem : ∀ e : Expr, var ∈ e.uniform.modified ↔ var ∈ e.modified := fun e => by
    rw [← List.contains_iff_mem, e.contains_modified_uniform, List.contains_iff_mem]
  rw [Bool.eq_iff_iff, List.contains_iff_mem, List.contains_iff_mem, modified_eq, modified_eq,
    evaluated_uniform, walk_uniform, List.flatMap_map, List.flatMap_map]
  simp only [List.mem_eraseDups, List.mem_append, List.mem_flatMap, hmem, declared_uniform]

mutual
theorem hasDefault_uniform : (x : Stmt) → Flow.hasDefault x.uniform = Flow.hasDefault x
  | case v b p => by
    cases v with
    | none => rfl
    | some v => exact hasDefault_uniform b
  | label n b p => hasDefault_uniform b
  | block ss p => hasDefaultAmong_uniform ss
  | ifElse c a b p => by
    simp only [uniform, Flow.hasDefault, hasDefault_uniform a, hasDefaultElse_uniform b]
  | whileDo c b p => hasDefault_uniform b
  | doWhile b c p => hasDefault_uniform b
  | forDo i c t b p => hasDefault_uniform b
  | switch .. | simple _ | goto .. | ret .. | brk _ | cont _ | empty _ => rfl

theorem hasDefaultAmong_uniform :
    (ss : List Stmt) → Flow.hasDefaultAmong (uniformAll ss) = Flow.hasDefaultAmong ss
  | [] => rfl
  | x :: ss => by
    simp only [uniformAll, Flow.hasDefaultAmong, hasDefault_uniform x, hasDefaultAmong_uniform ss]

theorem hasDefaultElse_uniform :
    (o : Option Stmt) → Flow.hasDefaultElse (uniformElse o) = Flow.hasDefaultElse o
  | none => rfl
  | some x => hasDefault_uniform x
end

end Questions

end Stmt

namespace Element

variable (e : Element)

@[simp] theorem key_uniform : e.uniform.key = e.key := rfl

@[simp] theorem stmt_uniform : e.uniform.stmt = e.stmt.uniform := rfl

@[simp] theorem role_uniform : e.uniform.role = e.role := rfl

@[simp] theorem exprs_uniform : e.uniform.exprs = e.exprs.map Expr.uniform := rfl

@[simp] theorem ancestors_uniform : e.uniform.ancestors = e.ancestors.map Stmt.uniform := rfl

theorem line_uniform : e.uniform.line = e.line := by
  rw [line, line]
  cases h : e.exprs with
  | nil => simp only [uniform, h, List.map_nil, Stmt.line_uniform]
  | cons x xs => simp only [uniform, h, List.map_cons, Expr.line_uniform, Stmt.line_uniform]

theorem any_calls_uniform {q : Call → Bool} (hq : ∀ c : Call, q c.uniform = q c) :
    e.uniform.calls.any q = e.calls.any q := by
  rw [calls, calls, uniform, List.flatMap_map, List.any_flatMap, List.any_flatMap]
  exact any_congr_of_mem fun x _ => Expr.any_calls_uniform hq x

theorem nextSibling?_uniform : e.uniform.nextSibling? = e.nextSibling?.map Stmt.uniform := by
  simp only [nextSibling?, uniform, List.getLast?_map]
  cases e.ancestors.getLast? with
  | none => rfl
  | some last =>
    cases e.address.getLast? with
    | none => cases last <;> rfl
    | some i =>
      cases last with
      | block ss p =>
        simp only [Option.map_some, Stmt.uniform, Stmt.uniformAll_eq, List.getElem?_map]
      | _ => rfl

end Element

namespace Flow

theorem isConstant_uniform (literals : List String) (e : Expr) :
    isConstant literals e.uniform = isConstant literals e := by
  simp only [isConstant, Expr.strip_uniform]
  cases e.strip with
  | call f args via p =>
    obtain ⟨f', args', h⟩ := Expr.exists_uniform_call f args via p
    rw [h]
  | _ => rfl

theorem isExitCall_uniform (exits : List String) (e : Expr) :
    isExitCall exits e.uniform = isExitCall exits e := by
  simp only [isExitCall, Expr.strip_uniform, Expr.call?_uniform]
  cases e.strip.call? with
  | none => rfl
  | some c =>
    simp only [Option.map_some, Call.viaInterface_uniform, Call.receiver?_uniform,
      Call.calls_uniform]

end Flow

end JniContracts
