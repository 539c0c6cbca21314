import JniContracts.Pattern.Instances
import JniContracts.Proofs.Gathering

/-!
The two spellings of interface calls. `(*env)->F(env, x)` and `env->F(x)` have one uniform spelling,
and expressions that differ only in such spellings, and in their columns, have the same uniform
form. An expression and its uniform form have the same text.
-/

namespace JniContracts

variable {via : Bool} {args : List Expr}

def Pos.flat (p : Pos) : Pos := ⟨p.line, 0⟩

namespace Expr

/-- The spellings of an interface call of `n` through `r` with arguments `own`. -/
inductive Spells : Expr → List Expr → String → String → List Expr → Prop where
  | table {obj n p r q side q' a own} (hobj : obj.strip = unary .deref (name r q) side q')
      (ha : a.strip.name? = some r) : Spells (member obj n true p) (a :: own) r n own
  | pointer {obj n p r q own} (hobj : obj.strip = name r q) :
      Spells (member obj n true p) own r n own

inductive Alike : Expr → Expr → Prop where
  | name {n p p'} (hp : p.line = p'.line) : Alike (name n p) (name n p')
  | literal {t k p p'} (hp : p.line = p'.line) : Alike (literal t k p) (literal t k p')
  | ellipsis {p p'} (hp : p.line = p'.line) : Alike (ellipsis p) (ellipsis p')
  | call {f f' args args' via p p'} (hp : p.line = p'.line) (hf : Alike f f')
      (hlen : args.length = args'.length) (hargs : ∀ a ∈ args.zip args', Alike a.1 a.2) :
      Alike (call f args via p) (call f' args' via p')
  | interfaceCall {f f' args args' r n own own' p p'} (hp : p.line = p'.line)
      (hf : Spells f args r n own) (hf' : Spells f' args' r n own')
      (hlen : own.length = own'.length) (hown : ∀ a ∈ own.zip own', Alike a.1 a.2) :
      Alike (call f args true p) (call f' args' true p')
  | member {o o' attr arrow p p'} (hp : p.line = p'.line) (ho : Alike o o') :
      Alike (member o attr arrow p) (member o' attr arrow p')
  | index {o o' i i' p p'} (hp : p.line = p'.line) (ho : Alike o o') (hi : Alike i i') :
      Alike (index o i p) (index o' i' p')
  | unary {op e e' side p p'} (hp : p.line = p'.line) (he : Alike e e') :
      Alike (unary op e side p) (unary op e' side p')
  | binary {op l l' r r' p p'} (hp : p.line = p'.line) (hl : Alike l l') (hr : Alike r r') :
      Alike (binary op l r p) (binary op l' r' p')
  | conditional {c c' x x' y y' p p'} (hp : p.line = p'.line) (hc : Alike c c') (hx : Alike x x')
      (hy : Alike y y') : Alike (conditional c x y p) (conditional c' x' y' p')
  | assign {op t t' v v' p p'} (hp : p.line = p'.line) (ht : Alike t t') (hv : Alike v v') :
      Alike (assign op t v p) (assign op t' v' p')
  | cast {t e e' p p'} (hp : p.line = p'.line) (he : Alike e e') : Alike (cast t e p) (cast t e' p')
  | initList {es es' p p'} (hp : p.line = p'.line) (hlen : es.length = es'.length)
      (hes : ∀ a ∈ es.zip es', Alike a.1 a.2) : Alike (initList es p) (initList es' p')
  | verbatim {t p p'} (hp : p.line = p'.line) : Alike (verbatim t p) (verbatim t p')

def spelled? (f : Expr) (args : List Expr) : Option (String × String) :=
  match f with
  | member obj n true _ =>
    match obj.strip with
    | unary .deref e _ _ =>
      match e.name? with
      | some r => if args.head?.bind (·.strip.name?) = some r then some (r, n) else none
      | none => none
    | name r _ => some (r, n)
    | _ => none
  | _ => none

def repeated (f : Expr) : Nat := if f.tablePointer?.isSome then 1 else 0

mutual
/-- The form in which all interface calls are spelled through the pointer, and nothing has a
column. -/
def uniform : Expr → Expr
  | name n p => name n p.flat
  | literal t k p => literal t k p.flat
  | ellipsis p => ellipsis p.flat
  | call f args via p =>
    match if via then f.spelled? args else none with
    | some (r, n) =>
      call (member (name r p.flat) n true p.flat) ((uniformAll args).drop f.repeated) true p.flat
    | none => call f.uniform (uniformAll args) via p.flat
  | member o attr arrow p => member o.uniform attr arrow p.flat
  | index o i p => index o.uniform i.uniform p.flat
  | unary op e side p => unary op e.uniform side p.flat
  | binary op l r p => binary op l.uniform r.uniform p.flat
  | conditional c x y p => conditional c.uniform x.uniform y.uniform p.flat
  | assign op t v p => assign op t.uniform v.uniform p.flat
  | cast t e p => cast t e.uniform p.flat
  | initList es p => initList (uniformAll es) p.flat
  | verbatim t p => verbatim t p.flat

def uniformAll : List Expr → List Expr
  | [] => []
  | e :: es => e.uniform :: uniformAll es
end

theorem uniformAll_eq (es : List Expr) : uniformAll es = es.map uniform := by
  induction es with
  | nil => rfl
  | cons e es ih => rw [uniformAll, ih, List.map_cons]

theorem renderAll_eq (es : List Expr) : renderAll es = es.map render := by
  induction es with
  | nil => rfl
  | cons e es ih => rw [renderAll, ih, List.map_cons]

section Spellings

variable {f : Expr} {args own : List Expr} {r n : String} {p : Pos}

theorem Spells.spelled? (h : Spells f args r n own) :
    f.spelled? args = some (r, n) ∧ own = args.drop f.repeated := by
  cases h with
  | @table obj n p r q side q' a own hobj ha =>
    have hname : (name r q).name? = some r := rfl
    simp [Expr.spelled?, hobj, hname, ha, repeated, tablePointer?]
  | pointer hobj => simp [Expr.spelled?, hobj, repeated, tablePointer?]

theorem spells_of_spelled? (h : f.spelled? args = some (r, n)) :
    Spells f args r n (args.drop f.repeated) := by
  unfold Expr.spelled? at h
  split at h
  · rename_i obj n' q
    split at h
    · rename_i e side q' hobj
      split at h
      · rename_i r' hr
        split at h
        · rename_i hhead
          cases h
          cases e with
          | name r'' q'' =>
            cases hr
            cases args with
            | nil => cases hhead
            | cons a own =>
              have hrep : (member obj n true q).repeated = 1 := by
                simp [repeated, tablePointer?, hobj]
              rw [hrep, List.drop_one, List.tail_cons]
              exact .table hobj hhead
          | _ => cases hr
        · cases h
      · cases h
    · rename_i r' q' hobj
      cases h
      have hrep : (member obj n true q).repeated = 0 := by simp [repeated, tablePointer?, hobj]
      rw [hrep, List.drop_zero]
      exact .pointer hobj
    · cases h
  · cases h

theorem uniform_spelled (h : f.spelled? args = some (r, n)) :
    (call f args true p).uniform = call (member (name r p.flat) n true p.flat)
      ((args.drop f.repeated).map uniform) true p.flat := by
  simp only [uniform, if_true, h, uniformAll_eq, List.map_drop]

theorem uniform_plain (h : via = true → f.spelled? args = none) :
    (call f args via p).uniform = call f.uniform (args.map uniform) via p.flat := by
  cases via with
  | false => simp only [uniform, Bool.false_eq_true, if_false, uniformAll_eq]
  | true => simp only [uniform, if_true, h, uniformAll_eq]

theorem Spells.callee? (h : Spells f args r n own) : f.callee? = some n := by
  cases h <;> rfl

theorem Spells.receiver? (h : Spells f args r n own) : f.receiver? = some r := by
  cases h with
  | table hobj ha => simp [Expr.receiver?, tablePointer?, hobj]
  | pointer hobj => simp [Expr.receiver?, tablePointer?, namedObject?, hobj]

/-- A call is spelled in one of the two ways, or it is left as it is. -/
theorem spelled_or_plain (f : Expr) (args : List Expr) (via : Bool) :
    (∃ r n, via = true ∧ f.spelled? args = some (r, n)) ∨
    (via = true → f.spelled? args = none) := by
  cases hvia : via with
  | false => exact .inr (by simp)
  | true =>
    cases h : f.spelled? args with
    | none => exact .inr fun _ => rfl
    | some rn => exact .inl ⟨rn.1, rn.2, rfl, rfl⟩

theorem exists_uniform_call (f : Expr) (args : List Expr) (via : Bool) (p : Pos) :
    ∃ f' args', (call f args via p).uniform = call f' args' via p.flat := by
  rcases spelled_or_plain f args via with ⟨r, n, rfl, h⟩ | h
  · exact ⟨_, _, uniform_spelled h⟩
  · exact ⟨_, _, uniform_plain h⟩

/-- What does not look into calls does not see how they are spelled. -/
theorem apply_uniform_call {α : Type} (F : Expr → α)
    (hF : ∀ f' args', F (call f' args' via p.flat) = F (call f args via p)) :
    F (call f args via p).uniform = F (call f args via p) := by
  obtain ⟨f', args', h⟩ := exists_uniform_call f args via p
  rw [h]
  exact hF f' args'

end Spellings

section Heads

@[simp] theorem name?_uniform (e : Expr) : e.uniform.name? = e.name? := by
  cases e with
  | call f args via p => exact apply_uniform_call name? fun _ _ => rfl
  | _ => rfl

theorem strip_uniform : (e : Expr) → e.uniform.strip = e.strip.uniform
  | cast t e p => by
    rw [uniform, strip, strip]
    exact strip_uniform e
  | call f args via p => by
    obtain ⟨f', args', h⟩ := exists_uniform_call f args via p
    simp only [strip, h]
  | name .. | literal .. | ellipsis .. | member .. | index .. | unary .. | binary ..
  | conditional .. | assign .. | initList .. | verbatim .. => rfl

theorem line_uniform (e : Expr) : e.uniform.line = e.line := by
  cases e with
  | call f args via p => exact apply_uniform_call line fun _ _ => rfl
  | _ => rfl

theorem isLoose_uniform (e : Expr) : e.uniform.isLoose = e.isLoose := by
  cases e with
  | call f args via p => exact apply_uniform_call isLoose fun _ _ => rfl
  | _ => rfl

theorem tablePointer?_member (obj : Expr) (attr : String) (p : Pos) :
    (member obj attr true p).tablePointer? = match obj.strip with
      | unary .deref e _ _ => e.name?
      | _ => none := by
  simp only [tablePointer?]
  cases obj.strip with
  | unary op e side q =>
    cases op with
    | deref => cases e <;> rfl
    | _ => rfl
  | _ => rfl

theorem namedObject?_member (obj : Expr) (attr : String) (arrow : Bool) (p : Pos) :
    (member obj attr arrow p).namedObject? = obj.strip.name? := by
  simp only [namedObject?]
  cases obj.strip <;> rfl

theorem tablePointer?_uniform (f : Expr) : f.uniform.tablePointer? = f.tablePointer? := by
  cases f with
  | member obj attr arrow p =>
    cases arrow with
    | false => rfl
    | true =>
      rw [uniform, tablePointer?_member, tablePointer?_member, strip_uniform]
      cases obj.strip with
      | unary op e side q =>
        cases op with
        | deref => exact name?_uniform e
        | _ => rfl
      | call f args via q =>
        obtain ⟨f', args', h⟩ := exists_uniform_call f args via q
        rw [h]
      | _ => rfl
  | call f args via p => exact apply_uniform_call tablePointer? fun _ _ => rfl
  | _ => rfl

theorem namedObject?_uniform (f : Expr) : f.uniform.namedObject? = f.namedObject? := by
  cases f with
  | member obj attr arrow p =>
    rw [uniform, namedObject?_member, namedObject?_member, strip_uniform, name?_uniform]
  | call f args via p => exact apply_uniform_call namedObject? fun _ _ => rfl
  | _ => rfl

theorem receiver?_uniform (f : Expr) : f.uniform.receiver? = f.receiver? := by
  simp only [receiver?, tablePointer?_uniform, namedObject?_uniform]

theorem callee?_uniform (f : Expr) : f.uniform.callee? = f.callee? := by
  cases f with
  | call f args via p => exact apply_uniform_call callee? fun _ _ => rfl
  | _ => rfl

end Heads

end Expr

def Call.uniform (c : Call) : Call :=
  match if c.viaInterface then c.func.spelled? c.args else none with
  | some (r, n) =>
    ⟨.member (.name r c.pos.flat) n true c.pos.flat, (c.args.drop c.func.repeated).map Expr.uniform,
      true, c.pos.flat⟩
  | none => ⟨c.func.uniform, c.args.map Expr.uniform, c.viaInterface, c.pos.flat⟩

namespace Call

open Expr

theorem uniform_of_spelled {f : Expr} {r n : String} {p : Pos} (h : f.spelled? args = some (r, n)) :
    uniform ⟨f, args, true, p⟩ = ⟨.member (.name r p.flat) n true p.flat,
      (args.drop f.repeated).map Expr.uniform, true, p.flat⟩ := by
  simp only [uniform, if_true, h]

theorem uniform_of_plain {f : Expr} {p : Pos} (h : via = true → f.spelled? args = none) :
    uniform ⟨f, args, via, p⟩ = ⟨f.uniform, args.map Expr.uniform, via, p.flat⟩ := by
  cases via with
  | false => rfl
  | true => simp only [uniform, if_true, h]

theorem viaInterface_uniform (c : Call) : c.uniform.viaInterface = c.viaInterface := by
  obtain ⟨f, args, via, p⟩ := c
  rcases spelled_or_plain f args via with ⟨r, n, rfl, h⟩ | h
  · rw [uniform_of_spelled h]
  · rw [uniform_of_plain h]

theorem callee?_uniform (c : Call) : c.uniform.callee? = c.callee? := by
  obtain ⟨f, args, via, p⟩ := c
  rcases spelled_or_plain f args via with ⟨r, n, rfl, h⟩ | h
  · rw [uniform_of_spelled h]
    exact (spells_of_spelled? h).callee?.symm
  · rw [uniform_of_plain h]
    exact Expr.callee?_uniform f

theorem receiver?_uniform (c : Call) : c.uniform.receiver? = c.receiver? := by
  obtain ⟨f, args, via, p⟩ := c
  rcases spelled_or_plain f args via with ⟨r, n, rfl, h⟩ | h
  · rw [uniform_of_spelled h]
    exact (spells_of_spelled? h).receiver?.symm
  · rw [uniform_of_plain h]
    exact Expr.receiver?_uniform f

theorem ownArgs_eq (f : Expr) (args : List Expr) (p : Pos) :
    ownArgs ⟨f, args, true, p⟩ = args.drop f.repeated := by
  simp only [ownArgs, repeated, Bool.true_and]
  split <;> rfl

theorem ownArgs_uniform (c : Call) : c.uniform.ownArgs = c.ownArgs.map Expr.uniform := by
  obtain ⟨f, args, via, p⟩ := c
  rcases spelled_or_plain f args via with ⟨r, n, rfl, h⟩ | h
  · rw [uniform_of_spelled h, ownArgs_eq, ownArgs_eq]
    rfl
  · rw [uniform_of_plain h]
    cases via with
    | false => rfl
    | true => simp only [ownArgs_eq, repeated, tablePointer?_uniform, List.map_drop]

end Call

namespace Expr

theorem call?_uniform (e : Expr) : e.uniform.call? = e.call?.map Call.uniform := by
  cases e with
  | call f args via p =>
    rcases spelled_or_plain f args via with ⟨r, n, rfl, h⟩ | h
    · rw [uniform_spelled h, call?, call?, Option.map_some, Call.uniform_of_spelled h]
    · rw [uniform_plain h, call?, call?, Option.map_some, Call.uniform_of_plain h]
  | _ => rfl

theorem render_call (f : Expr) (args : List Expr) (via : Bool) (p : Pos) :
    (call f args via p).render = match via, f.receiver?, f.callee? with
    | true, some r, some n =>
      r ++ "->" ++ n ++ "(" ++ commaList ((Call.ownArgs ⟨f, args, true, p⟩).map render) ++ ")"
    | _, _, _ => enclose f f.render ++ "(" ++ commaList (args.map render) ++ ")" := by
  have htexts : (if f.tablePointer?.isSome then (args.map render).drop 1 else args.map render) =
      (args.drop f.repeated).map render := by
    rw [repeated, List.map_drop]
    split <;> rfl
  cases via <;> cases hr : f.receiver? <;> cases hc : f.callee? <;>
    simp only [render, renderAll_eq, Call.ownArgs_eq, hr, hc, htexts]

theorem enclose_uniform (e : Expr) (text : String) : enclose e.uniform text = enclose e text := by
  simp only [enclose, isLoose_uniform]

mutual
theorem render_uniform : (e : Expr) → e.uniform.render = e.render
  | name .. | literal .. | ellipsis .. | verbatim .. => rfl
  | call f args via p => by
    rcases spelled_or_plain f args via with ⟨r, n, rfl, h⟩ | h
    · have hs := spells_of_spelled? h
      simp only [uniform_spelled h, render_call, hs.receiver?, hs.callee?, Call.ownArgs_eq,
        List.map_drop, map_render_uniform args]
      rfl
    · simp only [uniform_plain h, render_call, receiver?_uniform, callee?_uniform, Call.ownArgs_eq,
        repeated, tablePointer?_uniform, enclose_uniform, render_uniform f, List.map_drop,
        map_render_uniform args]
  | member o attr arrow p => by simp only [uniform, render, enclose_uniform, render_uniform o]
  | index o i p => by
    simp only [uniform, render, enclose_uniform, render_uniform o, render_uniform i]
  | unary op e side p => by
    cases side <;> simp only [uniform, render, enclose_uniform, render_uniform e]
  | binary op l r p => by
    cases op <;> simp only [uniform, render, enclose_uniform, render_uniform l, render_uniform r]
  | conditional c x y p => by
    simp only [uniform, render, enclose_uniform, render_uniform c, render_uniform x,
      render_uniform y]
  | assign op t v p => by simp only [uniform, render, render_uniform t, render_uniform v]
  | cast t e p => by simp only [uniform, render, enclose_uniform, render_uniform e]
  | initList es p => by
    simp only [uniform, render, renderAll_eq, uniformAll_eq, map_render_uniform es]

theorem map_render_uniform : (es : List Expr) → (es.map uniform).map render = es.map render
  | [] => rfl
  | e :: es => by simp only [List.map_cons, render_uniform e, map_render_uniform es]
end

theorem head?_bind_uniform (args : List Expr) :
    (args.map uniform).head?.bind (·.strip.name?) = args.head?.bind (·.strip.name?) := by
  cases args with
  | nil => rfl
  | cons a args =>
    simp only [List.map_cons, List.head?_cons, Option.bind_some, strip_uniform, name?_uniform]

theorem spelled?_uniform (f : Expr) (args : List Expr) :
    f.uniform.spelled? (args.map uniform) = f.spelled? args := by
  cases f with
  | member obj attr arrow p =>
    cases arrow with
    | false => rfl
    | true =>
      simp only [uniform, spelled?, strip_uniform, head?_bind_uniform]
      cases obj.strip with
      | unary op e side q =>
        cases op with
        | deref => simp only [uniform, name?_uniform]
        | _ => rfl
      | call f args via q =>
        obtain ⟨f', args', h⟩ := exists_uniform_call f args via q
        rw [h]
      | _ => rfl
  | call f args via p =>
    obtain ⟨f', args', h⟩ := exists_uniform_call f args via p
    rw [h]
    rfl
  | _ => rfl

theorem uniform_call_congr {f f' : Expr} {args' : List Expr} {p p' : Pos} (hp : p.line = p'.line)
    (hf : f.uniform = f'.uniform) (hargs : args.map uniform = args'.map uniform) :
    (call f args via p).uniform = (call f' args' via p').uniform := by
  have hs : f.spelled? args = f'.spelled? args' := by
    rw [← spelled?_uniform f args, ← spelled?_uniform f' args', hf, hargs]
  have hrep : f.repeated = f'.repeated := by
    rw [repeated, repeated, ← tablePointer?_uniform f, ← tablePointer?_uniform f', hf]
  simp only [uniform, uniformAll_eq, hs, hrep, hf, hargs, Pos.flat, hp]

/-- Expressions that differ only in spelling have one uniform form. -/
theorem Alike.uniform_eq {e e' : Expr} (h : Alike e e') : e.uniform = e'.uniform := by
  induction h with
  | call hp _ hlen _ ihf ihargs => exact uniform_call_congr hp ihf (map_congr_of_zip hlen ihargs)
  | interfaceCall hp hf hf' hlen _ ih =>
    obtain ⟨hs, rfl⟩ := hf.spelled?
    obtain ⟨hs', rfl⟩ := hf'.spelled?
    rw [uniform_spelled hs, uniform_spelled hs', map_congr_of_zip hlen ih, Pos.flat, Pos.flat, hp]
  | initList hp hlen _ ih =>
    simp only [uniform, uniformAll_eq, Pos.flat, hp]
    rw [map_congr_of_zip hlen ih]
  | _ => simp_all only [uniform, Pos.flat]

end Expr

end JniContracts
