import JniContracts.Proofs.Rendering.Parsed
import JniContracts.Proofs.Rendering.RoundTrip

/-!
Text and structure. Rendering does not show all of the structure of an expression: it leaves out
parentheses around operands that start with an operator, around commas in a list and around the
target of an assignment, it may put an operator and its operand into one word, and it drops the
casts on the pointer of an interface call. Where none of these is needed, expressions with one text
have one structure.
-/

namespace JniContracts

open Rendering Lexer

namespace Expr

def table? (f : Expr) (args : List Expr) : Option (String × String) :=
  match f, args with
  | member (unary .deref (name r _) _ _) n true _, name r' _ :: _ =>
    if r = r' then some (r, n) else none
  | _, _ => none

mutual
/-- The structure of an expression: it has no places, and an interface call `(*r)->n(r, ..)` is
spelled `r->n(..)`. -/
def shape : Expr → Expr
  | name n _ => name n .origin
  | literal t k _ => literal t k .origin
  | ellipsis _ => ellipsis .origin
  | call f args via _ =>
    match if via then f.table? args else none with
    | some (r, n) =>
      call (member (name r .origin) n true .origin) ((shapeAll args).drop 1) true .origin
    | none => call f.shape (shapeAll args) via .origin
  | member o attr arrow _ => member o.shape attr arrow .origin
  | index o i _ => index o.shape i.shape .origin
  | unary op e side _ => unary op e.shape side .origin
  | binary op l r _ => binary op l.shape r.shape .origin
  | conditional c x y _ => conditional c.shape x.shape y.shape .origin
  | assign op t v _ => assign op t.shape v.shape .origin
  | cast t e _ => cast t e.shape .origin
  | initList es _ => initList (shapeAll es) .origin
  | verbatim t _ => verbatim t .origin

def shapeAll : List Expr → List Expr
  | [] => []
  | e :: es => e.shape :: shapeAll es
end

section Equations

attribute [local simp] shape shapeAll

theorem shapeAll_eq (es : List Expr) : shapeAll es = es.map shape := by
  induction es with
  | nil => rfl
  | cons e es ih => simp [ih]

end Equations

def isDirect : Expr → Bool
  | call f args true _ => (f.table? args).isSome || f.pointer?.isSome
  | _ => true

/-- Nothing that rendering leaves out is needed. -/
def isPlain (e : Expr) : Bool := e.walk.all isDirect && e.shape.walk.all isClear

def pointers (e : Expr) (via : Bool) : List String :=
  (e.shape.calls.filter (·.viaInterface == via)).filterMap (·.func.pointer?)

section Calls

variable {f : Expr} {args : List Expr} {r n : String} {p : Pos}

theorem table?_eq_some (h : f.table? args = some (r, n)) : ∃ q side q' p' q'' own,
    f = member (unary .deref (name r q) side q') n true p' ∧ args = name r q'' :: own := by
  unfold table? at h
  split at h
  · split at h
    · rename_i heq
      cases h
      subst heq
      exact ⟨_, _, _, _, _, _, rfl, rfl⟩
    · cases h
  · cases h

theorem shape_plainCall (f : Expr) (args : List Expr) (p : Pos) :
    (call f args false p).shape = call f.shape (args.map shape) false .origin := by
  simp [shape, shapeAll_eq]

theorem shape_interfaceCall (h : (call f args true p).isDirect = true) :
    ∃ r n, f.spelled? args = some (r, n) ∧ (call f args true p).shape = call
      (member (name r .origin) n true .origin) ((args.drop f.repeated).map shape) true .origin := by
  cases htable : f.table? args with
  | some rn =>
    obtain ⟨q, side, q', p', q'', own, rfl, rfl⟩ := table?_eq_some htable
    have hspells :
        Spells (member (unary .deref (name rn.1 q) side q') rn.2 true p')
          (name rn.1 q'' :: own) rn.1 rn.2 own := .table rfl rfl
    obtain ⟨hspelled, hown⟩ := hspells.spelled?
    exact ⟨rn.1, rn.2, hspelled, by simp [shape, htable, shapeAll_eq, ← hown]⟩
  | none =>
    obtain ⟨r, hr⟩ : ∃ r, f.pointer? =
        some r := by simpa [isDirect, htable, Option.isSome_iff_exists] using h
    obtain ⟨q, n, q', rfl⟩ := pointer?_eq_some hr
    have hspells : Spells (member (name r q) n true q') args r n args := .pointer rfl
    obtain ⟨hspelled, hown⟩ := hspells.spelled?
    exact ⟨r, n, hspelled, by simp [shape, htable, shapeAll_eq, ← hown]⟩

theorem render_interfaceCall (h : f.spelled? args = some (r, n)) : (call f args true p).render =
    r ++ "->" ++ n ++ "(" ++ commaList ((args.drop f.repeated).map render) ++ ")" := by
  have hspells := spells_of_spelled? h
  rw [render_call, hspells.receiver?, hspells.callee?, Call.ownArgs_eq]

end Calls

theorem isLoose_shape (e : Expr) : e.shape.isLoose = e.isLoose := by
  cases e with
  | call f args via p =>
    rw [shape]
    split <;> rfl
  | _ => rfl

theorem bare_shape (e : Expr) : e.shape.bare = e.shape := by
  induction e using child_induction with
  | step e ih =>
  have hall :
      ∀ es : List Expr, (∀ x ∈ es, x ∈ e.children) → (es.map shape).map bare = es.map shape :=
    fun es h => by
    rw [List.map_map]
    exact List.map_congr_left fun x hx => ih x (h x hx)
  cases e with
  | call f args via p =>
    have hargs := hall args fun x hx => List.mem_cons_of_mem _ hx
    rw [shape]
    split
    · simp only [bare, bareAll_eq, shapeAll_eq, List.map_drop, hargs]
    · simp only [bare, bareAll_eq, shapeAll_eq, hargs, ih f List.mem_cons_self]
  | initList es p => simp only [shape, bare, bareAll_eq, shapeAll_eq, hall es fun x hx => hx]
  | name | literal | ellipsis | verbatim => rfl
  | member o attr arrow p => simp only [shape, bare, ih o (by simp [children])]
  | unary op a side p => simp only [shape, bare, ih a (by simp [children])]
  | cast t a p => simp only [shape, bare, ih a (by simp [children])]
  | index a b p => simp only [shape, bare, ih a (by simp [children]), ih b (by simp [children])]
  | binary op a b p => simp only [shape, bare, ih a (by simp [children]), ih b (by simp [children])]
  | assign op a b p => simp only [shape, bare, ih a (by simp [children]), ih b (by simp [children])]
  | conditional a b c p =>
    simp only [shape, bare, ih a (by simp [children]), ih b (by simp [children]),
      ih c (by simp [children])]

theorem render_shape {e : Expr} (h : ∀ x ∈ e.walk, x.isDirect = true) :
    e.shape.render = e.render := by
  induction e using child_induction with
  | step e ih =>
  have sub : ∀ c ∈ e.children, c.shape.render = c.render :=
    fun c hc => ih c hc fun x hx => h x (mem_walk_child hc hx)
  have part : ∀ c ∈ e.children, enclose c.shape c.shape.render = enclose c c.render :=
    fun c hc => by
    rw [sub c hc, enclose, enclose, isLoose_shape]
  have hall :
      ∀ es : List Expr, (∀ x ∈ es, x ∈ e.children) → (es.map shape).map render = es.map render :=
    fun es h => by
    rw [List.map_map]
    exact List.map_congr_left fun x hx => sub x (h x hx)
  have hdirect : e.isDirect = true := h e (mem_walk_self e)
  cases e with
  | call f args via p =>
    cases via with
    | true =>
      obtain ⟨r, n, hspelled, hshape⟩ := shape_interfaceCall hdirect
      have hown :=
        hall (args.drop f.repeated) fun x hx => List.mem_cons_of_mem _ (List.mem_of_mem_drop hx)
      have hrepeated : (member (name r .origin) n true .origin).repeated = 0 := rfl
      rw [hshape, render_interfaceCall hspelled, render_interfaceCall (r := r) (n := n) rfl,
        hrepeated, List.drop_zero, hown]
    | false =>
      have hargs := hall args fun x hx => List.mem_cons_of_mem _ hx
      rw [shape_plainCall]
      simp only [render, renderAll_eq, hargs, part f List.mem_cons_self]
  | initList es p => simp only [shape, render, renderAll_eq, shapeAll_eq, hall es fun x hx => hx]
  | name | literal | ellipsis | verbatim => rfl
  | member o attr arrow p => simp only [shape, render, part o (by simp [children])]
  | unary op a side p => cases side <;> simp only [shape, render, part a (by simp [children])]
  | cast t a p => simp only [shape, render, part a (by simp [children])]
  | index a b p =>
    simp only [shape, render, part a (by simp [children]), sub b (by simp [children])]
  | binary op a b p =>
    cases op <;> simp only [shape, render, part a (by simp [children]), part b (by simp [children])]
  | assign op a b p =>
    simp only [shape, render, sub a (by simp [children]), sub b (by simp [children])]
  | conditional a b c p =>
    simp only [shape, render, part a (by simp [children]), part b (by simp [children]),
      part c (by simp [children])]

def IsThrough : Expr → Prop
  | call f _ true _ => f.pointer?.isSome = true
  | _ => True

/-- The structure of a sound expression is sound, and its interface calls are spelled through their
pointers. -/
theorem shape_nodes {e : Expr} (hs : e.Sound) (hd : ∀ x ∈ e.walk, x.isDirect = true) :
    ∀ x ∈ e.shape.walk, x.IsSound ∧ x.IsThrough := by
  induction e using child_induction with
  | step e ih =>
  have sub : ∀ c ∈ e.children, ∀ x ∈ c.shape.walk, x.IsSound ∧ x.IsThrough := fun c hc =>
    ih c hc (hs.child hc) fun x hx => hd x (mem_walk_child hc hx)
  have kids : ∀ c ∈ e.children.map shape, ∀ x ∈ c.walk, x.IsSound ∧ x.IsThrough := by
    intro c hc
    obtain ⟨c, hmem, rfl⟩ := List.mem_map.mp hc
    exact sub c hmem
  have hself := hs.self
  rw [forall_walk]
  cases e with
  | call f args via p =>
    cases via with
    | false =>
      rw [shape_plainCall]
      exact ⟨⟨fun h => (by cases h), trivial⟩, kids⟩
    | true =>
      obtain ⟨r, n, hspelled, hshape⟩ := shape_interfaceCall (hd _ (mem_walk_self _))
      obtain ⟨hr, hn⟩ := (spells_of_spelled? hspelled).texts (hs.child (by simp [children]))
      rw [hshape]
      refine ⟨⟨fun _ => rfl, rfl⟩, fun c hc => ?_⟩
      obtain rfl | hc := List.mem_cons.mp hc
      · simp only [walk, List.forall_mem_cons]
        exact ⟨⟨hn, trivial⟩, ⟨hr, trivial⟩, by simp⟩
      · refine kids c (List.mem_cons_of_mem _ ?_)
        obtain ⟨a, ha, rfl⟩ := List.mem_map.mp hc
        exact List.mem_map_of_mem (List.mem_of_mem_drop ha)
  | initList es p =>
    rw [shape, shapeAll_eq]
    exact ⟨⟨trivial, trivial⟩, kids⟩
  | unary op a side p =>
    refine ⟨⟨?_, trivial⟩, kids⟩
    cases side with
    | behind => exact hself
    | before =>
      intro hop
      have hrender :=
        render_shape fun x hx => hd x (mem_walk_child (c := a) (by simp [children]) hx)
      rw [tight, hrender, enclose, isLoose_shape]
      exact hself hop
  | name | literal | ellipsis | verbatim | member | cast | index | binary | assign | conditional =>
    exact ⟨⟨hself, trivial⟩, kids⟩

theorem mem_pointers {e f : Expr} {args : List Expr} {via : Bool} {p : Pos} {r : String}
    (h : call f args via p ∈ e.shape.walk) (hr : f.pointer? = some r) : r ∈ e.pointers via := by
  have hcall : (⟨f, args, via, p⟩ : Call) ∈ e.shape.calls := List.mem_filterMap.mpr ⟨_, h, rfl⟩
  exact List.mem_filterMap.mpr ⟨_, List.mem_filter.mpr ⟨hcall, by simp⟩, hr⟩

theorem legible_shape {e : Expr} {ps : List String} (hs : e.Sound) (hplain : e.isPlain = true)
    (hin : ∀ r ∈ e.pointers true, r ∈ ps) (hout : ∀ r ∈ e.pointers false, r ∉ ps) :
    e.shape.Legible ps := by
  simp only [isPlain, Bool.and_eq_true, List.all_eq_true] at hplain
  intro x hx
  obtain ⟨hsound, hthrough⟩ := shape_nodes hs hplain.1 x hx
  refine ⟨hsound, hplain.2 x hx, ?_⟩
  cases x with
  | call f args via p =>
    rw [agrees, beq_iff_eq]
    cases via with
    | true =>
      obtain ⟨r, hr⟩ := Option.isSome_iff_exists.mp hthrough
      simpa [hr] using hin r (mem_pointers hx hr)
    | false =>
      cases hr : f.pointer? with
      | none => rfl
      | some r => simpa using hout r (mem_pointers hx hr)
  | _ => rfl

end Expr

open Expr

/-- Expressions have one text exactly if they have one structure, provided that nothing is needed
which rendering leaves out and that calls through one pointer are of one kind. -/
theorem render_eq_iff_shape_eq {e e' : Expr} (h : e.IsRead) (h' : e'.IsRead)
    (hplain : e.isPlain = true) (hplain' : e'.isPlain = true)
    (hpointers : ∀ r ∈ e.pointers true ++ e'.pointers true,
      r ∉ e.pointers false ++ e'.pointers false) :
    e.render = e'.render ↔ e.shape = e'.shape := by
  have hdirect : ∀ {e : Expr}, e.isPlain = true → ∀ x ∈ e.walk, x.isDirect = true := fun h =>
    List.all_eq_true.mp (Bool.and_eq_true_iff.mp h).1
  rw [← render_shape (hdirect hplain), ← render_shape (hdirect hplain')]
  refine ⟨fun heq => ?_, fun heq => by rw [heq]⟩
  have hlegible :=
    legible_shape h.sound hplain (fun r hr => List.mem_append_left _ hr) fun r hr hmem =>
    hpointers r hmem (List.mem_append_left _ hr)
  have hlegible' :=
    legible_shape h'.sound hplain' (fun r hr => List.mem_append_right _ hr) fun r hr hmem =>
    hpointers r hmem (List.mem_append_right _ hr)
  rw [← bare_shape e, ← bare_shape e']
  exact bare_eq_of_render hlegible hlegible' heq

def Expr.traits (e : Expr) : List (Bool × Bool × Option Bool) :=
  e.walk.map fun x => (x.isPrefix, x.isAssign, x.call?.map (·.viaInterface))

/-- Texts of two expressions each, which are rendered alike. In turn: a step and a call of what is
pointed to, a sign in front of a sign, a comma in an argument, an assignment to an assignment, a
call through a pointer that is not known as an interface, a word in front of a word, a member of a
number, and a cast on an interface pointer. -/
def collisions : List (String × String) := [
  ("(*p)++", "*p++"), ("(*p)->f(x)", "*p->f(x)"), ("-(-x)", "--x"), ("f((a, b))", "f(a, b)"),
  ("(a = b) = c", "a = b = c"), ("(*p)->f(p)", "p->f()"), ("_Alignof x", "_Alignofx"),
  ("1 .f", "1.f"),
  ("((T *)env)->F(x)", "env->F(x)")]

def Collide (texts : String × String) : Prop :=
  ∃ e e', Expr.parse texts.1 ["env"] = .ok e ∧ Expr.parse texts.2 ["env"] = .ok e' ∧
    e.render = e'.render ∧ e.shape ≠ e'.shape

theorem collisions_render_alike : collisions.Forall Collide := by
  have hall : collisions.all (fun c => (Expr.parse c.1 ["env"]).toOption.any fun e =>
      (Expr.parse c.2 ["env"]).toOption.any fun e' =>
        e.render == e'.render && e.shape.traits != e'.shape.traits) = true := by decide +kernel
  refine List.forall_iff_forall_mem.mpr fun c hc => ?_
  obtain ⟨e, he, hrest⟩ := exists_of_any (List.all_eq_true.mp hall c hc)
  obtain ⟨e', he', hsame⟩ := exists_of_any hrest
  obtain ⟨hrender, htraits⟩ : e.render = e'.render ∧ e.shape.traits ≠ e'.shape.traits := by
    simpa using hsame
  exact ⟨e, e', he, he', hrender, fun hshape => htraits (by rw [hshape])⟩

theorem render_eq_iff_shape_eq_spellings :
    ∃ e e', Expr.parse "(*env)->Set(env, a[i], -x + 1)" ["env"] = .ok e ∧
    Expr.parse "env->Set((a)[i], (-x) + 1)" ["env"] = .ok e' ∧ e.render = e'.render ∧
    e.shape = e'.shape := by
  have hrun : (Expr.parse "(*env)->Set(env, a[i], -x + 1)" ["env"]).toOption.any (fun e =>
      (Expr.parse "env->Set((a)[i], (-x) + 1)" ["env"]).toOption.any fun e' =>
        e.render == e'.render &&
            (e.isPlain && e'.isPlain && (e.pointers true ++ e'.pointers true).all fun r =>
          !(e.pointers false ++ e'.pointers false).contains r)) = true := by
    decide +kernel
  obtain ⟨e, he, hrest⟩ := exists_of_any hrun
  obtain ⟨e', he', hchecks⟩ := exists_of_any hrest
  simp only [Bool.and_eq_true, beq_iff_eq, List.all_eq_true, Bool.not_eq_true',
    List.contains_eq_mem, decide_eq_false_iff_not] at hchecks
  obtain ⟨hrender, ⟨hplain, hplain'⟩, hpointers⟩ := hchecks
  refine ⟨e, e', he, he', hrender, ?_⟩
  exact (render_eq_iff_shape_eq (isRead_of_parse he)
    (isRead_of_parse he') hplain hplain' hpointers).mp hrender

end JniContracts
