import JniContracts.Proofs.Elements
import JniContracts.Proofs.Splitting.Statements

/-!
The elements of a statement before and after declarations are split, side by side. Each element
stays one, with the same role and the same expressions, except that of a split declaration, which
becomes one for each name.
-/

namespace JniContracts

variable {P : Address → Prop}

/-- An element of a statement, and the elements that stand for it when declarations are split. -/
structure Row where
  whole : Element
  parts : List Element

structure Seat where
  up : List Stmt
  up' : List Stmt
  addr : Address
  addr' : Address

namespace Seat

def into (w : Seat) (chosen : Address → Bool) (s : Stmt) : Seat :=
  { w with up := w.up ++ [s], up' := w.up' ++ [s.split chosen] }

def part (w : Seat) (n n' : Nat) : Seat :=
  { w with addr := w.addr ++ [n], addr' := w.addr' ++ [n'] }

def inside (w : Seat) (chosen : Address → Bool) (s : Stmt) (n : Nat) : Seat :=
  (w.into chosen s).part n n

def keep (w : Seat) (chosen : Address → Bool) (s : Stmt) (role : Role) (exprs : List Expr) : Row :=
  ⟨⟨w.addr, s, role, exprs, w.up⟩, [⟨w.addr', s.split chosen, role, exprs, w.up'⟩]⟩

def divide (w : Seat) (n n' : Nat) (s : Stmt) : Row :=
  ⟨⟨w.addr ++ [n], s, .stmt, s.exprs, w.up⟩,
    (s.apart.zipIdx n').map fun x => ⟨w.addr' ++ [x.2], x.1, .stmt, x.1.exprs, w.up'⟩⟩

end Seat

namespace Stmt

def declares : Stmt → Bool
  | simple (.decl _ (_ :: _) _) => true
  | _ => false

mutual
def rowsIn (chosen : Address → Bool) (w : Seat) : Stmt → List Row
  | s@(block ss _) => rowsOfAll chosen (w.into chosen s) 0 0 ss
  | s@(simple x) => [w.keep chosen s .stmt x.exprs]
  | s@(ifElse c a b _) =>
    w.keep chosen s .cond [c] :: (rowsIn (below chosen 0) (w.inside chosen s 0) a ++
      rowsOfElse (below chosen 1) (w.inside chosen s 1) b)
  | s@(whileDo c b _) =>
    w.keep chosen s .cond [c] :: rowsIn (below chosen 0) (w.inside chosen s 0) b
  | s@(doWhile b c _) =>
    rowsIn (below chosen 0) (w.inside chosen s 0) b ++ [w.keep chosen s .cond [c]]
  | s@(forDo i c t b _) =>
    i.toList.map (fun x => (w.inside chosen s 0).keep (below chosen 0) (simple x) .init x.exprs) ++
      c.toList.map (fun c => w.keep chosen s .cond [c]) ++
      rowsIn (below chosen 1) (w.inside chosen s 1) b ++
      t.toList.map (fun t => w.keep chosen s .step [t])
  | s@(switch c b _) => w.keep chosen s .cond [c] :: rowsIn (below chosen 0) (w.inside chosen s 0) b
  | s@(case _ b _) => rowsIn (below chosen 0) (w.inside chosen s 0) b
  | s@(label _ b _) => rowsIn (below chosen 0) (w.inside chosen s 0) b
  | s@(ret v _) => [w.keep chosen s .ret v.toList]
  | s@(goto _ _) => [w.keep chosen s .goto []]
  | brk _ | cont _ | empty _ => []

/-- The statements of a block, from number `n` on before and from number `n'` on after. -/
def rowsOfAll (chosen : Address → Bool) (w : Seat) : Nat → Nat → List Stmt → List Row
  | _, _, [] => []
  | n, n', s :: ss =>
    (if chosen [n] && s.declares then [w.divide n n' s] else rowsIn (below chosen n) (w.part n n')
      s) ++ rowsOfAll chosen w (n + 1) (n' + if chosen [n] then s.apart.length else 1) ss

def rowsOfElse (chosen : Address → Bool) (w : Seat) : Option Stmt → List Row
  | none => []
  | some s => rowsIn chosen w s
end

end Stmt

structure Element.Resembles (e e' : Element) : Prop where
  stmt : e.stmt.Resembles e'.stmt
  role : e'.role = e.role
  exprs : e'.exprs = e.exprs
  ancestors : List.Forall₂ Stmt.Resembles e.ancestors e'.ancestors
  behind : ∀ s : Settings, e'.nextSibling?.any s.isTerminator = e.nextSibling?.any s.isTerminator

structure Element.Declares (up : List Stmt) (t : String) (p : Pos) (d : Declarator)
  (e : Element) : Prop where
  stmt : e.stmt = .simple (.decl t [d] p)
  role : e.role = .stmt
  exprs : e.exprs = d.assignments
  ancestors : List.Forall₂ Stmt.Resembles up e.ancestors

/-- An element stays one, or it is a declaration at an address with some property and is split. -/
inductive Row.Fits (P : Address → Prop) : Row → Prop where
  | kept {e e' : Element} (h : e.Resembles e') : Fits P ⟨e, [e']⟩
  | split {addr : Address} {t : String} {ds : List Declarator} {p : Pos} {up : List Stmt}
      {parts : List Element} (haddr : P addr) (hds : ds ≠ [])
      (hparts : List.Forall₂ (Element.Declares up t p) ds parts) :
      Fits P ⟨⟨addr, .simple (.decl t ds p), .stmt, ds.flatMap Declarator.assignments, up⟩, parts⟩

structure Covers (P : Address → Prop) (rows : List Row) (es es' : List Element) : Prop where
  wholes : rows.map Row.whole = es
  parts : rows.flatMap Row.parts = es'
  fits : ∀ r ∈ rows, r.Fits P

namespace Covers

variable {P : Address → Prop} {rows rows' : List Row} {es es' fs fs' : List Element}

theorem nil : Covers P [] [] [] := ⟨rfl, rfl, by simp⟩

theorem append (h : Covers P rows es es') (h' : Covers P rows' fs fs') :
    Covers P (rows ++ rows') (es ++ fs) (es' ++ fs') := by
  refine ⟨?_, ?_, fun r hr => ?_⟩
  · rw [List.map_append, h.wholes, h'.wholes]
  · rw [List.flatMap_append, h.parts, h'.parts]
  · exact (List.mem_append.mp hr).elim (h.fits r) (h'.fits r)

end Covers

def Stmt.behind? (up : List Stmt) (addr : Address) : Option Stmt :=
  Element.nextSibling? ⟨addr, .empty ⟨0, 0⟩, .stmt, [], up⟩

theorem Stmt.behind?_eq {up : List Stmt} {ss : List Stmt} {p : Pos}
    (h : up.getLast? = some (.block ss p)) (addr : Address) (n : Nat) :
    behind? up (addr ++ [n]) = ss[n + 1]? := by
  simp only [behind?, Element.nextSibling?, h, List.getLast?_concat]

/-- What stands around and behind a statement is alike before and after, and the addresses of the
chosen declarations in it have some property. -/
structure Seat.Sound (P : Address → Prop) (chosen : Address → Bool) (w : Seat) : Prop where
  up : List.Forall₂ Stmt.Resembles w.up w.up'
  behind : ∀ s : Settings, (Stmt.behind? w.up' w.addr').any s.isTerminator =
      (Stmt.behind? w.up w.addr).any s.isTerminator
  holds : ∀ addr, chosen addr = true → P (w.addr ++ addr)

variable {s : Stmt}

namespace Seat

variable {P : Address → Prop} {chosen : Address → Bool} {w : Seat}

theorem Sound.into (h : w.Sound P chosen) (s : Stmt) :
    List.Forall₂ Stmt.Resembles (w.into chosen s).up (w.into chosen s).up' :=
  List.rel_append h.up (.cons ⟨chosen, rfl⟩ .nil)

theorem holds_part (h : ∀ addr, chosen addr = true → P (w.addr ++ addr)) (n n' : Nat) :
    ∀ addr, below chosen n addr = true → P ((w.part n n').addr ++ addr) := by
  intro addr haddr
  rw [part, List.append_assoc]
  exact h (n :: addr) haddr

theorem Sound.inside (h : w.Sound P chosen) (hs : ∀ ss p, s ≠ .block ss p) (n : Nat) :
    (w.inside chosen s n).Sound P (below chosen n) := by
  refine ⟨h.into s, fun settings => ?_, holds_part h.holds n n⟩
  have hnone : ∀ (up : List Stmt) (addr : Address) (s : Stmt), (∀ ss p, s ≠ .block ss p) →
      Stmt.behind? (up ++ [s]) (addr ++ [n]) = none := by
    intro up addr s hs
    simp only [Stmt.behind?, Element.nextSibling?, List.getLast?_concat]
    cases s with
    | block ss p => exact absurd rfl (hs ss p)
    | _ => rfl
  have hs' : ∀ ss p, s.split chosen ≠ .block ss p := by
    intro ss p hsplit
    cases s with
    | block ss p => exact hs ss p rfl
    | _ => cases hsplit
  rw [show Stmt.behind? (w.inside chosen s n).up'
    (w.inside chosen s n).addr' = none from hnone _ _ _ hs',
    show Stmt.behind? (w.inside chosen s n).up (w.inside chosen s n).addr =
        none from hnone _ _ _ hs]

theorem Sound.keep (h : w.Sound P chosen) (s : Stmt) (role : Role) (exprs : List Expr) :
    Covers P [w.keep chosen s role exprs] [⟨w.addr, s, role, exprs, w.up⟩]
      [⟨w.addr', s.split chosen, role, exprs, w.up'⟩] := by
  refine ⟨rfl, rfl, fun r hr => ?_⟩
  rw [List.mem_singleton.mp hr]
  exact .kept ⟨⟨chosen, rfl⟩, rfl, rfl, h.up, h.behind⟩

theorem Sound.keepIf {α : Type} (h : w.Sound P chosen) (s : α → Stmt) (role : Role)
    (exprs : α → List Expr) (o : Option α) :
    Covers P (o.toList.map fun x => w.keep chosen (s x) role (exprs x))
      (o.toList.map fun x => ⟨w.addr, s x, role, exprs x, w.up⟩)
      (o.toList.map fun x => ⟨w.addr', (s x).split chosen, role, exprs x, w.up'⟩) := by
  cases o with
  | none => exact .nil
  | some x => exact h.keep (s x) role (exprs x)

end Seat

namespace Stmt

theorem elementsOfAll_append (up : List Stmt) (addr : Address) (n : Nat) (ss ss' : List Stmt) :
    elementsOfAll up addr n (ss ++ ss') =
    elementsOfAll up addr n ss ++ elementsOfAll up addr (n + ss.length) ss' := by
  induction ss generalizing n with
  | nil => rfl
  | cons s ss ih =>
    rw [List.cons_append, elementsOfAll, elementsOfAll, ih, List.append_assoc, List.length_cons]
    congr 3
    omega

theorem elementsOfAll_simple (up : List Stmt) (addr : Address) (n : Nat) (xs : List Simple) :
    elementsOfAll up addr n (xs.map simple) =
      ((xs.map simple).zipIdx n).map fun x => ⟨addr ++ [x.2], x.1, .stmt, x.1.exprs, up⟩ := by
  induction xs generalizing n with
  | nil => rfl
  | cons x xs ih =>
    rw [List.map_cons, elementsOfAll, ih, List.zipIdx_cons, List.map_cons]
    rfl

theorem declares_cases (h : s.declares = true) : ∃ t d ds p, s = simple (.decl t (d :: ds) p) := by
  cases s with
  | simple x =>
    cases x with
    | expr e p => cases h
    | decl t ds p =>
      cases ds with
      | nil => cases h
      | cons d ds => exact ⟨t, d, ds, p, rfl⟩
  | _ => cases h

theorem apart_of_not_declares (h : s.declares = false) : s.apart = [s] := by
  rcases s.apart_cases with hs | ⟨t, d, ds, p, rfl, -⟩
  · exact hs
  · cases h

theorem declares_split (chosen : Address → Bool) (s : Stmt) :
    (s.split chosen).declares = s.declares := by
  cases s <;> rfl

theorem split_of_declares (chosen : Address → Bool) (h : s.declares = true) :
    s.split chosen = s := by
  obtain ⟨t, d, ds, p, rfl⟩ := declares_cases h
  rfl

def replacement (chosen : Address → Bool) (n : Nat) (s : Stmt) : List Stmt :=
  if chosen [n] then (s.split (below chosen n)).apart else [s.split (below chosen n)]

theorem replacement_of_declares {chosen : Address → Bool} {n : Nat}
    (h : (chosen [n] && s.declares) = true) : replacement chosen n s = s.apart := by
  obtain ⟨hc, hs⟩ := Bool.and_eq_true_iff.mp h
  rw [replacement, if_pos hc, split_of_declares _ hs]

theorem replacement_of_kept {chosen : Address → Bool} {n : Nat}
    (h : (chosen [n] && s.declares) = false) :
    replacement chosen n s = [s.split (below chosen n)] := by
  rw [replacement]
  split
  · rename_i hc
    rw [hc, Bool.true_and, ← declares_split (below chosen n)] at h
    exact apart_of_not_declares h
  · rfl

theorem length_replacement (chosen : Address → Bool) (n : Nat) (s : Stmt) :
    (replacement chosen n s).length = if chosen [n] then s.apart.length else 1 := by
  rw [replacement]
  split
  · cases hs : s.declares with
    | true => rw [split_of_declares _ hs]
    | false =>
      rw [apart_of_not_declares hs, apart_of_not_declares ((declares_split _ s).trans hs)]; rfl
  · rfl

theorem getElem?_behind (pre : List Stmt) (s : Stmt) (ss : List Stmt) :
    (pre ++ s :: ss)[pre.length + 1]? = ss.head? := by
  rw [List.getElem?_append_right (by omega), Nat.add_sub_cancel_left, List.getElem?_cons_succ,
    List.head?_eq_getElem?]

/-- Of a split block the first statement ends in a jump just if that of the block does. -/
theorem head?_splitAll (chosen : Address → Bool) (n : Nat) (ss : List Stmt) (settings : Settings) :
    (splitAll chosen n ss).head?.any settings.isTerminator =
    ss.head?.any settings.isTerminator := by
  cases ss with
  | nil => rfl
  | cons s ss =>
    rw [splitAll]
    split
    · rcases (s.split (below chosen n)).apart_cases with hs | ⟨t, d, ds, p, hs, hparts⟩
      · rw [hs]
        exact isTerminator_split _ s settings
      · have hd : settings.isTerminator s = false := by
          rw [← isTerminator_split (below chosen n) s settings, hs]
          rfl
        rw [hparts, List.head?_cons, Option.any_some, hd]
        rfl
    · exact isTerminator_split _ s settings

variable {P : Address → Prop}

/-- The elements of a split declaration are those of the declarations that it is split into. -/
theorem parts_divide (w : Seat) (n n' : Nat) (hs : s.declares = true) :
    (w.divide n n' s).parts = elementsOfAll w.up' w.addr' n' s.apart := by
  obtain ⟨t, d, ds, p, rfl⟩ := declares_cases hs
  have hparts :
      apart (simple (.decl t (d :: ds) p)) =
      ((d :: ds).map fun d => Simple.decl t [d] p).map simple := by
    rw [List.map_map]
    rfl
  rw [Seat.divide, hparts, elementsOfAll_simple]

theorem covers_divide {w : Seat} (hup : List.Forall₂ Resembles w.up w.up') {n n' : Nat}
    (hn : P (w.addr ++ [n])) (hs : s.declares = true) :
    Covers P [w.divide n n' s] (s.elementsIn w.up (w.addr ++ [n]))
      (elementsOfAll w.up' w.addr' n' s.apart) := by
  obtain ⟨t, d, ds, p, rfl⟩ := declares_cases hs
  refine ⟨rfl, ?_, fun r hr => ?_⟩
  · rw [List.flatMap_singleton, parts_divide w n n' hs]
  · rw [List.mem_singleton.mp hr]
    refine .split hn (List.cons_ne_nil d ds) ?_
    have hzip : ∀ (xs : List Declarator) (m : Nat), List.Forall₂ (Element.Declares w.up t p) xs
        (((xs.map fun d => simple (.decl t [d] p)).zipIdx m).map fun x => ⟨w.addr' ++ [x.2], x.1,
          .stmt, x.1.exprs, w.up'⟩) := by
      intro xs
      induction xs with
      | nil => exact fun _ => .nil
      | cons x xs ih => exact fun m => .cons ⟨rfl, rfl, List.append_nil _, hup⟩ (ih (m + 1))
    exact hzip (d :: ds) n'

mutual
theorem covers_rowsIn :
    (s : Stmt) → (chosen : Address → Bool) → (w : Seat) → w.Sound P chosen → Covers P
      (rowsIn chosen w s) (s.elementsIn w.up w.addr) ((s.split chosen).elementsIn w.up' w.addr')
  | block ss p, chosen, w, hw =>
    covers_rowsOfAll ss chosen _ (hw.into (block ss p)) hw.holds []
      [] p p List.getLast?_concat List.getLast?_concat
  | simple x, chosen, w, hw => hw.keep (simple x) .stmt x.exprs
  | ifElse c a b p, chosen, w, hw => by
    have hin := hw.inside (s := ifElse c a b p) (by simp)
    exact (hw.keep (ifElse c a b p) .cond [c]).append
      ((covers_rowsIn a _ _ (hin 0)).append (covers_rowsOfElse b _ _ (hin 1)))
  | whileDo c b p, chosen, w, hw => by
    have hin := hw.inside (s := whileDo c b p) (by simp)
    exact (hw.keep (whileDo c b p) .cond [c]).append (covers_rowsIn b _ _ (hin 0))
  | doWhile b c p, chosen, w, hw => by
    have hin := hw.inside (s := doWhile b c p) (by simp)
    exact (covers_rowsIn b _ _ (hin 0)).append (hw.keep (doWhile b c p) .cond [c])
  | forDo i c t b p, chosen, w, hw => by
    have hin := hw.inside (s := forDo i c t b p) (by simp)
    have hown := hw.keepIf fun _ : Expr => forDo i c t b p
    exact ((((hin 0).keepIf simple .init Simple.exprs i).append
      (hown .cond (fun c => [c]) c)).append (covers_rowsIn b _ _ (hin 1))).append
      (hown .step (fun t => [t]) t)
  | switch c b p, chosen, w, hw => by
    have hin := hw.inside (s := switch c b p) (by simp)
    exact (hw.keep (switch c b p) .cond [c]).append (covers_rowsIn b _ _ (hin 0))
  | case v b p, chosen, w, hw => covers_rowsIn b _ _ (hw.inside (s := case v b p) (by simp) 0)
  | label n b p, chosen, w, hw => covers_rowsIn b _ _ (hw.inside (s := label n b p) (by simp) 0)
  | ret v p, chosen, w, hw => hw.keep (ret v p) .ret v.toList
  | goto l p, chosen, w, hw => hw.keep (goto l p) .goto []
  | brk _, _, _, _ => .nil
  | cont _, _, _, _ => .nil
  | empty _, _, _, _ => .nil

theorem covers_rowsOfAll :
    (ss : List Stmt) → (chosen : Address → Bool) → (w : Seat) → List.Forall₂ Resembles w.up w.up' →
    (∀ addr, chosen addr = true → P (w.addr ++ addr)) → (pre pre' : List Stmt) → (p p' : Pos) →
    w.up.getLast? = some (block (pre ++ ss) p) →
    w.up'.getLast? = some (block (pre' ++ splitAll chosen pre.length ss) p') →
    Covers P (rowsOfAll chosen w pre.length pre'.length ss) (elementsOfAll w.up w.addr pre.length
      ss) (elementsOfAll w.up' w.addr' pre'.length (splitAll chosen pre.length ss))
  | [], _, _, _, _, _, _, _, _, _, _ => .nil
  | s :: ss, chosen, w, hup, hP, pre, pre', p, p', hlast, hlast' => by
    have hsplit : splitAll chosen pre.length (s :: ss) =
        replacement chosen pre.length s ++ splitAll chosen (pre.length + 1) ss := rfl
    have hrest :=
      covers_rowsOfAll ss chosen w hup hP (pre ++ [s])
        (pre' ++ replacement chosen pre.length s) p p'
    simp only [List.length_append, List.length_singleton, List.append_assoc] at hrest
    rw [hsplit] at hlast' ⊢
    rw [rowsOfAll, elementsOfAll, elementsOfAll_append, ← length_replacement]
    refine Covers.append ?_ (hrest hlast hlast')
    cases hc : chosen [pre.length] && s.declares with
    | true =>
      obtain ⟨hchosen, hs⟩ := Bool.and_eq_true_iff.mp hc
      rw [if_pos rfl, replacement_of_declares hc]
      exact covers_divide hup (hP _ hchosen) hs
    | false =>
      rw [replacement_of_kept hc] at hlast' ⊢
      have hw : (w.part pre.length pre'.length).Sound P (below chosen pre.length) := by
        refine ⟨hup, fun settings => ?_, Seat.holds_part hP _ _⟩
        show (behind? w.up' (w.addr' ++ [pre'.length])).any _ =
            (behind? w.up (w.addr ++ [pre.length])).any _
        rw [behind?_eq hlast, behind?_eq hlast', getElem?_behind, List.singleton_append,
          getElem?_behind, head?_splitAll]
      have hs := covers_rowsIn s (below chosen pre.length) _ hw
      rw [← List.append_nil (elementsIn _ _ (split _ s))] at hs
      exact hs

theorem covers_rowsOfElse :
    (o : Option Stmt) → (chosen : Address → Bool) → (w : Seat) → w.Sound P chosen →
    Covers P (rowsOfElse chosen w o) (elementsOfElse w.up w.addr o)
      (elementsOfElse w.up' w.addr' (splitElse chosen o))
  | none, _, _, _ => .nil
  | some s, chosen, w, hw => covers_rowsIn s chosen w hw
end

end Stmt

/-- The expressions of an element are those of the elements that stand for it. -/
theorem Row.Fits.exprs {r : Row} (h : r.Fits P) :
    r.whole.exprs = r.parts.flatMap Element.exprs := by
  cases h with
  | kept h => rw [List.flatMap_singleton, h.exprs]
  | split _ _ hparts =>
    rw [List.flatMap_def, List.flatMap_def]
    exact congrArg List.flatten (map_congr_of_forall₂ hparts fun _ _ h => h.exprs.symm)

/-- What an element has in common with those that stand for it. Only the statement of a declaration
is another one. -/
structure Element.Reflects (e e' : Element) : Prop where
  role : e'.role = e.role
  line : e'.stmt.line = e.stmt.line
  ancestors : List.Forall₂ Stmt.Resembles e.ancestors e'.ancestors
  stmt : e.role = .stmt ∨ e.stmt.Resembles e'.stmt

theorem Row.Fits.reflects {r : Row} (h : r.Fits P) {e : Element} (he : e ∈ r.parts) :
    r.whole.Reflects e := by
  cases h with
  | kept h =>
    rw [List.mem_singleton.mp he]
    obtain ⟨chosen, hs⟩ := h.stmt
    refine ⟨h.role, ?_, h.ancestors, .inr h.stmt⟩
    rw [hs, Stmt.line, Stmt.pos_split]
    rfl
  | split _ _ hparts =>
    obtain ⟨d, -, hd⟩ := exists_of_forall₂ hparts he
    refine ⟨hd.role, ?_, hd.ancestors, .inl rfl⟩
    rw [hd.stmt]
    rfl

theorem Covers.exprs {rows : List Row} {es es' : List Element} (h : Covers P rows es es') :
    es'.flatMap Element.exprs = es.flatMap Element.exprs := by
  rw [← h.wholes, ← h.parts, List.flatMap_assoc, List.flatMap_map]
  exact List.flatMap_congr fun r hr => (h.fits r hr).exprs.symm

def Seat.outermost : Seat := ⟨[], [], [], []⟩

theorem Seat.sound_outermost (chosen : Address → Bool) :
    outermost.Sound (fun addr => chosen addr = true) chosen :=
  ⟨.nil, fun _ => rfl, fun _ h => h⟩

namespace Stmt

variable (chosen : Address → Bool) (s : Stmt)

def rows : List Row := s.rowsIn chosen .outermost

theorem covers_rows :
    Covers (fun addr => chosen addr = true) (s.rows chosen) s.elements (s.split chosen).elements :=
  covers_rowsIn s chosen _ (Seat.sound_outermost chosen)

theorem evaluated_split : (s.split chosen).evaluated = s.evaluated := (s.covers_rows chosen).exprs

theorem modified_split : (s.split chosen).modified = s.modified := by
  rw [modified_eq, modified_eq, evaluated_split, gathered_declared.walk]

end Stmt

end JniContracts
