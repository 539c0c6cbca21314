import JniContracts.Proofs.Release

/-!
What a branch tells about values. Expressions are evaluated over whole numbers, with null literals
and good statuses as zero, and all that the rules do not look at may have any value and change any
variable. On a branch that a release rule exempts the variable is null, or the status that was
tested is not a good one.
-/

namespace JniContracts

namespace Settings

def zeros (s : Settings) : List String := s.nullLiterals ++ s.statusOk

end Settings

structure Valuation (s : Settings) where
  value : String → Int
  zero : ∀ n ∈ s.zeros, value n = 0

/-- The values of an expression and of its parts, by their places, as far as they were evaluated. -/
abbrev Results := Address → Option Int

namespace Results

def nothing : Results := fun _ => none

def node (v : Int) (parts : List Results) : Results
  | [] => some v
  | n :: rest => parts[n]?.bind (· rest)

end Results

namespace BinOp

def relation? : BinOp → Option (Int → Int → Bool)
  | eq => some fun a b => a == b
  | ne => some fun a b => a != b
  | lt => some fun a b => a < b
  | gt => some fun a b => b < a
  | le => some fun a b => a ≤ b
  | ge => some fun a b => b ≤ a
  | _ => none

theorem relation_self {op : BinOp} (h : (op.isEquality || op == .lt || op == .gt) = true) :
    ∃ rel, op.relation? = some rel ∧ ∀ a, rel a a = (op == .eq) := by
  cases op with
  | eq | ne | lt | gt => exact ⟨_, rfl, by simp⟩
  | _ => cases h

end BinOp

def truth (b : Bool) : Int := if b then 1 else 0

@[simp] theorem truth_eq_zero {b : Bool} : truth b = 0 ↔ b = false := by cases b <;> simp [truth]

namespace Expr

def isFixed : Expr → Bool
  | name .. | literal .. | cast .. => true
  | assign _ target _ _ => target.strip.name?.isSome
  | binary op .. => op.relation?.isSome
  | unary op .. => op == .not
  | _ => false

def part? : Address → Expr → Option Expr
  | [], e => some e
  | n :: rest, e => e.children[n]?.bind (part? rest)

/-- Evaluating an expression gives it and its parts values, and may change variables. Casts keep
values. An assignment yields the value that it stores, which need not be the one on its right. The
operands of a relation may be evaluated in either order. -/
inductive Evaluates {s : Settings} (literals : Valuation s) : Valuation s → Expr → Int →
  Valuation s → Results → Prop
  | name {σ : Valuation s} {n : String} {p : Pos} :
      Evaluates literals σ (.name n p) (σ.value n) σ (.node (σ.value n) [])
  | literal {σ : Valuation s} {t : String} {kind : LiteralKind} {p : Pos} :
      Evaluates literals σ (.literal t kind p) (literals.value t) σ (.node (literals.value t) [])
  | cast {σ σ' : Valuation s} {t : String} {e : Expr} {p : Pos} {v : Int} {r : Results}
      (h : Evaluates literals σ e v σ' r) : Evaluates literals σ (.cast t e p) v σ' (.node v [r])
  | assign {σ σ₁ σ' : Valuation s} {op : AssignOp} {target value : Expr} {p : Pos} {x : String}
      {v stored : Int} {r : Results} (ht : target.strip.name? = some x)
      (h : Evaluates literals σ value v σ₁ r)
      (hstore : σ'.value = Function.update σ₁.value x stored) :
      Evaluates literals σ (.assign op target value p) stored σ' (.node stored [.nothing, r])
  | leftFirst {σ σ₁ σ' : Valuation s} {op : BinOp} {rel : Int → Int → Bool} {left right : Expr}
      {p : Pos} {a b : Int} {r r' : Results} (hop : op.relation? = some rel)
      (hl : Evaluates literals σ left a σ₁ r) (hr : Evaluates literals σ₁ right b σ' r') :
      Evaluates literals σ (.binary op left right p) (truth (rel a b)) σ'
        (.node (truth (rel a b)) [r, r'])
  | rightFirst {σ σ₁ σ' : Valuation s} {op : BinOp} {rel : Int → Int → Bool} {left right : Expr}
      {p : Pos} {a b : Int} {r r' : Results} (hop : op.relation? = some rel)
      (hr : Evaluates literals σ right b σ₁ r') (hl : Evaluates literals σ₁ left a σ' r) :
      Evaluates literals σ (.binary op left right p) (truth (rel a b)) σ'
        (.node (truth (rel a b)) [r, r'])
  | not {σ σ' : Valuation s} {e : Expr} {side : Side} {p : Pos} {v : Int} {r : Results}
      (h : Evaluates literals σ e v σ' r) :
      Evaluates literals σ (.unary .not e side p) (truth (v == 0)) σ' (.node (truth (v == 0)) [r])
  /-- Calls, arithmetic, members and so on. -/
  | other {σ σ' : Valuation s} {e : Expr} {v : Int} {r : Results} (h : e.isFixed = false)
      (hr : r [] = some v) : Evaluates literals σ e v σ' r

section Stripping

theorem stripAt_eq (e : Expr) (addr : Address) :
    e.stripAt addr = (addr ++ (e.stripAt []).1, e.strip) := by
  fun_induction strip e generalizing addr with
  | case1 t e p ih => rw [stripAt, ih, stripAt, ih ([] ++ [0]), List.append_assoc, List.nil_append]
  | case2 e hcast => cases e <;> simp_all [stripAt]

theorem part?_strip (e : Expr) (rest : Address) :
    e.part? ((e.stripAt []).1 ++ rest) = e.strip.part? rest := by
  fun_induction strip e with
  | case1 t e p ih =>
    rw [stripAt, stripAt_eq e ([] ++ [0])]
    exact ih
  | case2 e hcast => cases e <;> simp_all [stripAt]

end Stripping

variable {s : Settings} {literals σ σ' : Valuation s} {e l r : Expr} {v : Int}
  {res : Results} {p : Pos}

namespace Evaluates

theorem result (h : Evaluates literals σ e v σ' res) : res [] = some v := by
  cases h with
  | other h hr => exact hr
  | _ => rfl

theorem strip (h : Evaluates literals σ e v σ' res) :
    ∃ inner, Evaluates literals σ e.strip v σ' inner ∧
    ∀ rest, res ((e.stripAt []).1 ++ rest) = inner rest := by
  induction h with
  | @cast σ σ' t e p v r h ih =>
    obtain ⟨inner, hinner, hrest⟩ := ih
    refine ⟨inner, hinner, fun rest => ?_⟩
    rw [stripAt, stripAt_eq e ([] ++ [0])]
    exact hrest rest
  | @other σ σ' e v r h hr =>
    refine ⟨r, ?_, fun rest => ?_⟩
    · cases e with
      | cast t e p => cases h
      | _ => exact .other h hr
    · cases e with
      | cast t e p => cases h
      | _ => rfl
  | name => exact ⟨_, .name, fun _ => rfl⟩
  | literal => exact ⟨_, .literal, fun _ => rfl⟩
  | assign ht h hstore => exact ⟨_, .assign ht h hstore, fun _ => rfl⟩
  | leftFirst hop hl hr => exact ⟨_, .leftFirst hop hl hr, fun _ => rfl⟩
  | rightFirst hop hr hl => exact ⟨_, .rightFirst hop hr hl, fun _ => rfl⟩
  | not h => exact ⟨_, .not h, fun _ => rfl⟩

/-- A variable, or an assignment to it, has the value that the variable has afterwards. -/
theorem value_of_isVar (h : Evaluates literals σ e v σ' res) {x : String} (hx : e.isVar x = true) :
    σ'.value x = v := by
  obtain ⟨inner, hinner, -⟩ := h.strip
  unfold isVar at hx
  split at hx
  · rename_i n p hn
    rw [hn] at hinner
    cases beq_iff_eq.mp hx
    cases hinner with
    | name => rfl
    | other hfixed => cases hfixed
  · rename_i target value p hassign
    rw [hassign] at hinner
    have hname := beq_iff_eq.mp hx
    cases hinner with
    | assign ht _ hstore =>
      rw [hname] at ht
      cases ht
      rw [hstore, Function.update_self]
    | other hfixed => simp [isFixed, hname] at hfixed
  · cases hx

theorem zero_of_isOneOf (h : Evaluates literals σ e v σ' res) {names : List String}
    (hnames : names ⊆ s.zeros) (he : Settings.isOneOf names e = true) : v = 0 ∧ σ' = σ := by
  obtain ⟨inner, hinner, -⟩ := h.strip
  unfold Settings.isOneOf at he
  split at he
  · rename_i n p hn
    rw [hn] at hinner
    cases hinner with
    | name => exact ⟨σ.zero n (hnames (List.contains_iff_mem.mp he)), rfl⟩
    | other hfixed => cases hfixed
  · rename_i t kind p ht
    rw [ht] at hinner
    cases hinner with
    | literal => exact ⟨literals.zero t (hnames (List.contains_iff_mem.mp he)), rfl⟩
    | other hfixed => cases hfixed
  · cases he

theorem related {op : BinOp} {rel : Int → Int → Bool}
    (h : Evaluates literals σ (.binary op l r p) v σ' res) (hop : op.relation? = some rel) :
    ∃ a b inner inner' σ₁, v = truth (rel a b) ∧
    (∀ rest, res (0 :: rest) = inner rest ∧ res (1 :: rest) = inner' rest) ∧
    ((Evaluates literals σ l a σ₁ inner ∧ Evaluates literals σ₁ r b σ' inner') ∨
      (Evaluates literals σ r b σ₁ inner' ∧ Evaluates literals σ₁ l a σ' inner)) := by
  cases h with
  | leftFirst hop' hl hr =>
    cases hop.symm.trans hop'
    exact ⟨_, _, _, _, _, rfl, fun _ => ⟨rfl, rfl⟩, .inl ⟨hl, hr⟩⟩
  | rightFirst hop' hr hl =>
    cases hop.symm.trans hop'
    exact ⟨_, _, _, _, _, rfl, fun _ => ⟨rfl, rfl⟩, .inr ⟨hr, hl⟩⟩
  | other hfixed => simp [isFixed, hop] at hfixed

/-- A comparison of a part with a zero, on either side: all that happens is the evaluation of the
part. -/
theorem compared {op : BinOp} {rel : Int → Int → Bool}
    (h : Evaluates literals σ (.binary op l r p) v σ' res) (hop : op.relation? = some rel)
    {names : List String} (hnames : names ⊆ s.zeros) (asked : Nat → Expr → Bool)
    (hpart : ((asked 0 l && Settings.isOneOf names r) || (asked 1 r && Settings.isOneOf names l)) =
      true) :
    ∃ n part a inner, asked n part = true ∧ (Expr.binary op l r p).children[n]? = some part ∧
    Evaluates literals σ part a σ' inner ∧ (∀ rest, res (n :: rest) = inner rest) ∧
    (v = truth (rel a 0) ∨ v = truth (rel 0 a)) := by
  obtain ⟨a, b, inner, inner', σ₁, hv, hres, horder⟩ := h.related hop
  simp only [Bool.or_eq_true, Bool.and_eq_true] at hpart
  obtain ⟨hasked, hzero⟩ | ⟨hasked, hzero⟩ := hpart
  · suffices heval : b = 0 ∧ Evaluates literals σ l a σ' inner by
      obtain ⟨rfl, heval⟩ := heval
      exact ⟨0, l, a, inner, hasked, rfl, heval, fun rest => (hres rest).1, .inl hv⟩
    obtain ⟨hl, hr⟩ | ⟨hr, hl⟩ := horder
    · obtain ⟨hb, rfl⟩ := hr.zero_of_isOneOf hnames hzero
      exact ⟨hb, hl⟩
    · obtain ⟨hb, rfl⟩ := hr.zero_of_isOneOf hnames hzero
      exact ⟨hb, hl⟩
  · suffices heval : a = 0 ∧ Evaluates literals σ r b σ' inner' by
      obtain ⟨rfl, heval⟩ := heval
      exact ⟨1, r, b, inner', hasked, rfl, heval, fun rest => (hres rest).2, .inr hv⟩
    obtain ⟨hl, hr⟩ | ⟨hr, hl⟩ := horder
    · obtain ⟨ha, rfl⟩ := hl.zero_of_isOneOf hnames hzero
      exact ⟨ha, hr⟩
    · obtain ⟨ha, rfl⟩ := hl.zero_of_isOneOf hnames hzero
      exact ⟨ha, hr⟩

theorem negated {side : Side} (h : Evaluates literals σ (.unary .not e side p) v σ' res) :
    ∃ a inner, Evaluates literals σ e a σ' inner ∧ v = truth (a == 0) ∧
    ∀ rest, res (0 :: rest) = inner rest := by
  cases h with
  | not h => exact ⟨_, _, h, rfl, fun _ => rfl⟩
  | other hfixed => cases hfixed

end Evaluates

end Expr

open Expr Flow

namespace Settings

variable {s : Settings} {literals σ σ' : Valuation s} {c : Expr} {v : Int} {res : Results}
  {yes : Bool}

theorem zero_of_nullBranch (h : Evaluates literals σ c v σ' res) (hv : v ≠ 0 ↔ yes = true)
    {var : String} (hb : s.nullBranch c var = some (branchKind yes)) : σ'.value var = 0 := by
  have hnames : s.nullLiterals ⊆ s.zeros := List.subset_append_left ..
  obtain ⟨inner, hinner, -⟩ := h.strip
  unfold nullBranch at hb
  split at hb
  · rename_i l r p hc
    rw [hc] at hinner
    split at hb
    · rename_i hpart
      obtain ⟨n, part, a, inner', hvar, -, heval, -, hva⟩ :=
        hinner.compared rfl hnames (fun _ e => e.isVar var) hpart
      rw [heval.value_of_isVar hvar]
      cases yes with
      | true =>
        obtain rfl | rfl := hva
        · simpa using hv
        · exact Eq.symm (by simpa using hv)
      | false => cases hb
    · cases hb
  · rename_i l r p hc
    rw [hc] at hinner
    split at hb
    · rename_i hpart
      obtain ⟨n, part, a, inner', hvar, -, heval, -, hva⟩ :=
        hinner.compared rfl hnames (fun _ e => e.isVar var) hpart
      rw [heval.value_of_isVar hvar]
      cases yes with
      | true => cases hb
      | false =>
        obtain rfl | rfl := hva
        · simpa using hv
        · exact Eq.symm (by simpa using hv)
    · cases hb
  · rename_i e side p hc
    rw [hc] at hinner
    split at hb
    · rename_i hvar
      obtain ⟨a, inner', heval, rfl, -⟩ := hinner.negated
      rw [heval.value_of_isVar hvar]
      cases yes with
      | true => simpa using hv
      | false => cases hb
    · cases hb
  · split at hb
    · rename_i hvar
      rw [hinner.value_of_isVar hvar]
      cases yes with
      | true => cases hb
      | false => simpa using hv
    · cases hb

/-- On the branch on which a status is taken for a bad one, a part of the condition is the subject,
and it is not zero. -/
theorem subject_of_failureBranch (h : Evaluates literals σ c v σ' res) (hv : v ≠ 0 ↔ yes = true)
    {isSubject : Address → Expr → Bool} (hb : s.failureBranch c isSubject = some (branchKind yes)) :
    ∃ place part w inner, isSubject place part = true ∧ c.part? place = some part ∧
    Evaluates literals σ part w σ' inner ∧ (∀ rest, res (place ++ rest) = inner rest) ∧ w ≠ 0 := by
  have hnames : s.statusOk ⊆ s.zeros := List.subset_append_right ..
  obtain ⟨inner, hinner, hres⟩ := h.strip
  have hwhole := c.part?_strip
  unfold failureBranch at hb
  rw [stripAt_eq c []] at hb
  simp only [List.nil_append] at hb
  generalize (c.stripAt []).1 = place at hb hres hwhole
  -- the condition as a whole is the subject
  have hself : isSubject place c.strip = true → some EdgeKind.branchTrue = some (branchKind yes) →
      ∃ place part w inner, isSubject place part = true ∧ c.part? place = some part ∧
        Evaluates literals σ part w σ' inner ∧
        (∀ rest, res (place ++ rest) = inner rest) ∧ w ≠ 0 := by
    intro hsubject hkind
    cases yes with
    | true =>
      exact ⟨place, c.strip, v, inner, hsubject, (List.append_nil place ▸ hwhole []), hinner,
        hres, hv.mpr rfl⟩
    | false => cases hkind
  split at hb
  · rename_i op l r p hc
    split at hb
    · rename_i hop
      split at hb
      · rename_i hpart
        obtain ⟨rel, hrel, hself⟩ := BinOp.relation_self hop
        rw [hc] at hinner
        obtain ⟨n, part, a, inner', hsubject, hchild, heval, hinner', hva⟩ :=
          hinner.compared hrel hnames (fun n e => isSubject (place ++ [n]) e) hpart
        refine ⟨place ++ [n], part, a, inner', hsubject, ?_, heval, fun rest => ?_, ?_⟩
        · rw [hwhole, hc, part?, hchild]
          rfl
        · rw [List.append_assoc, List.singleton_append, hres, hinner']
        · -- the two kinds of branch differ in what equal operands would say
          rintro rfl
          have hzero : v = truth (op == .eq) := by
            rw [hself, or_self] at hva
            exact hva
          cases heq : op == .eq <;> cases yes <;> simp_all [branchKind]
      · cases hb
    · split at hb
      · rename_i hsubject
        exact hself (hc ▸ hsubject) hb
      · cases hb
  · rename_i e side p hc
    split at hb
    · rename_i hsubject
      rw [hc] at hinner
      obtain ⟨a, inner', heval, rfl, hinner'⟩ := hinner.negated
      refine ⟨place ++ [0], e, a, inner', hsubject, ?_, heval, fun rest => ?_, ?_⟩
      · rw [hwhole, hc]
        rfl
      · rw [List.append_assoc, List.singleton_append, hres, hinner']
      · cases yes with
        | true => cases hb
        | false => simpa using hv
    · split at hb
      · rename_i hsubject
        exact hself (hc ▸ hsubject) hb
      · cases hb
  · split at hb
    · rename_i hsubject
      exact hself hsubject hb
    · cases hb

end Settings

/-- A value of what a status test is about: of the site, in its own element, or of the variable with
its status. -/
inductive Site.SubjectValue (site : Site) (el : Element) (res : Results) {s : Settings}
  (σ : Valuation s) (w : Int) : Prop
  | site (hkey : el.key = site.element.key) (hroot : site.root = 0)
      (h : res site.spot.address = some w)
  | status {x : String} (hx : site.status? = some x) (h : σ.value x = w)

namespace Scene

variable {s : Settings} {literals σ σ' : Valuation s} {c : Expr} {v : Int} {res : Results}
  {yes : Bool}

/-- A part that counts as the subject has the subject's value. -/
theorem subjectValue_of_isSubject {site : Site} {el : Element} {place : Address} {part : Expr}
    {w : Int} {inner : Results} (hpart : Evaluates literals σ part w σ' inner)
    (hres : ∀ rest, res (place ++ rest) = inner rest)
    (h : isSubject site site.status? el place part = true) : site.SubjectValue el res σ' w := by
  obtain ⟨bare, hbare, hinner⟩ := hpart.strip
  unfold isSubject at h
  rw [stripAt_eq part place] at h
  simp only [Bool.or_eq_true, Bool.and_eq_true, beq_iff_eq, Option.any_eq_true] at h
  obtain ⟨⟨hkey, hroot⟩, haddr⟩ | ⟨x, hx, hvar⟩ := h
  · refine .site hkey hroot ?_
    rw [← haddr, hres, ← List.append_nil (part.stripAt []).1, hinner, hbare.result]
  · exact .status hx (hbare.value_of_isVar hvar)

/-- A condition is evaluated, and the branch that belongs to its value is taken. If the variable
counts as null on this branch, it is zero afterwards. If a status counts as bad on it, the part of
the condition that is the subject has a value other than zero, and where it is a variable or an
assignment to one, the variable has that value afterwards. So on a branch that a release rule
exempts, the variable of the site is zero, or the site or the variable with its status is not. -/
theorem exempt_branch_is_dead (h : Evaluates literals σ c v σ' res) (hv : v ≠ 0 ↔ yes = true) :
    (∀ var, s.nullBranch c var = some (branchKind yes) → σ'.value var = 0) ∧
    (∀ isSubject, s.failureBranch c isSubject = some (branchKind yes) →
      ∃ place part w, isSubject place part = true ∧ c.part? place = some part ∧
        res place = some w ∧ w ≠ 0 ∧ ∀ x, part.isVar x = true → σ'.value x = w) ∧
    ∀ (scene : Scene) (rule : Rule) (site : Site) (el : Element) (rest : List Expr),
      scene.settings = s → el.exprs = c :: rest → scene.ExemptBranch rule site el yes →
      (∃ x, site.bindings.get? "VAR" = some x ∧ σ'.value x = 0) ∨
        ∃ w, site.SubjectValue el res σ' w ∧ w ≠ 0 := by
  refine ⟨fun var hb => Settings.zero_of_nullBranch h hv hb, fun isSubject hb => ?_, ?_⟩
  · obtain ⟨place, part, w, inner, hsubject, hpart, heval, hres, hw⟩ :=
      Settings.subject_of_failureBranch h hv hb
    refine ⟨place, part, w, hsubject, hpart, ?_, hw, fun x hx => heval.value_of_isVar hx⟩
    rw [← List.append_nil place, hres, heval.result]
  · rintro scene rule site el rest rfl hexprs ⟨cond, rest', hcond, hexempt⟩
    rw [hexprs] at hcond
    cases hcond
    obtain ⟨-, x, hx, hb⟩ | ⟨-, hb⟩ := hexempt
    · exact .inl ⟨x, hx, Settings.zero_of_nullBranch h hv hb⟩
    · obtain ⟨place, part, w, inner, hsubject, -, heval, hres, hw⟩ :=
        Settings.subject_of_failureBranch h hv hb
      exact .inr ⟨w, subjectValue_of_isSubject heval hres hsubject, hw⟩

/-- `(s = get(n)) == NULL` -/
def nullTest : Expr :=
  .binary .eq (.assign .set (.name "s" ⟨1, 2⟩)
    (.call (.name "get" ⟨1, 6⟩) [.name "n" ⟨1, 10⟩] false ⟨1, 6⟩) ⟨1, 2⟩)
    (.name "NULL" ⟨1, 17⟩) ⟨1, 1⟩

/-- `JNI_OK > (rc = attach(vm))` -/
def statusTest : Expr :=
  .binary .gt (.name "JNI_OK" ⟨1, 1⟩)
    (.assign .set (.name "rc" ⟨1, 11⟩)
      (.call (.name "attach" ⟨1, 16⟩) [.name "vm" ⟨1, 23⟩] false ⟨1, 16⟩) ⟨1, 11⟩) ⟨1, 1⟩

def allZero : Valuation .standard := ⟨fun _ => 0, fun _ _ => rfl⟩

def refused : Valuation .standard := ⟨Function.update (fun _ => 0) "rc" (-1), by decide⟩

theorem exempt_branch_is_dead_tested :
    (∃ res, Evaluates allZero allZero nullTest 1 allZero res ∧
      Settings.standard.nullBranch nullTest "s" = some (branchKind true) ∧ allZero.value "s" = 0) ∧
    ∃ res, Evaluates allZero allZero statusTest 1 refused res ∧
    Settings.standard.failureBranch statusTest (fun _ e => e.isVar "rc") = some (branchKind true) ∧
    ∃ (part : Expr) (w : Int), part.isVar "rc" = true ∧ w ≠ 0 ∧ refused.value "rc" = w := by
  have stores :
      ∀ {x : String} {e : Expr} {p q : Pos} {w : Int} {σ' : Valuation .standard},
      e.isFixed = false → σ'.value = Function.update allZero.value x w →
      ∃ res, Evaluates allZero allZero (.assign .set (.name x p) e q) w σ' res := fun he hstore =>
    ⟨_, .assign rfl (.other (r := .node 0 []) he rfl) hstore⟩
  obtain ⟨set, hset⟩ :=
    stores (x := "s") (e := .call (.name "get" ⟨1, 6⟩) [.name "n" ⟨1, 10⟩] false ⟨1, 6⟩)
    (p := ⟨1, 2⟩) (q := ⟨1, 2⟩) (w := 0) rfl (Function.update_eq_self "s" allZero.value).symm
  obtain ⟨set', hset'⟩ :=
    stores (x := "rc") (e := .call (.name "attach" ⟨1, 16⟩) [.name "vm" ⟨1, 23⟩] false ⟨1, 16⟩)
    (p := ⟨1, 11⟩) (q := ⟨1, 11⟩) (w := -1) rfl (show refused.value = _ from rfl)
  have hnull : Evaluates allZero allZero nullTest 1 allZero _ :=
    @Evaluates.leftFirst .standard allZero allZero allZero allZero .eq
      (· == ·) _ _ _ 0 0 set _ rfl hset .name
  have hstatus : Evaluates allZero allZero statusTest 1 refused _ :=
    @Evaluates.leftFirst .standard allZero allZero allZero refused .gt (fun a b => b < a) _ _ _ 0
      (-1) _ set' rfl .name hset'
  have htrue : (1 : Int) ≠ 0 ↔ true = true := by decide
  have hbranch : Settings.standard.nullBranch nullTest "s" = some (branchKind true) := by decide
  have hbranch' :
      Settings.standard.failureBranch statusTest (fun _ e => e.isVar "rc") =
      some (branchKind true) := by decide
  obtain ⟨-, part, w, hsubject, -, -, hw, hvalue⟩ :=
    (exempt_branch_is_dead hstatus htrue).2.1 _ hbranch'
  exact ⟨⟨_, hnull, hbranch, (exempt_branch_is_dead hnull htrue).1 "s" hbranch⟩,
    _, hstatus, hbranch', part, w, hsubject, hw, hvalue "rc" hsubject⟩

end Scene

end JniContracts
