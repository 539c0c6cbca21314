import JniContracts.Proofs.EnclosingLoops

/-!
Putting one more statement into a block. The statements behind it in the block get other addresses,
and those around it grow. Every other statement stays where it is and as it is.
-/

namespace JniContracts

namespace Insertion

/-- The address that a statement has after one is put in at `place`: in that block, the statements
from there on are counted one higher. -/
def shift : Address → Address → Address
  | [n], i :: rest => if i < n then i :: rest else (i + 1) :: rest
  | m :: place, i :: rest => if i = m then i :: shift place rest else i :: rest
  | _, addr => addr

theorem shift_nil (place : Address) : shift place [] = [] := by
  unfold shift
  split <;> simp_all

theorem shift_cons (m : Nat) {place : Address} (h : place ≠ []) (i : Nat) (rest : Address) :
    shift (m :: place) (i :: rest) = if i = m then i :: shift place rest else i :: rest := by
  cases place with
  | nil => exact absurd rfl h
  | cons n place => rw [shift]; simp

theorem shift_eq_nil {place addr : Address} : shift place addr = [] ↔ addr = [] := by
  cases addr with
  | nil => simp [shift_nil]
  | cons i addr =>
    unfold shift
    split <;> (try split) <;> simp_all

/-- Below the statements around the place, what is left of the way to it counts. -/
theorem shift_append {place : Address} (h : place ≠ []) (addr rest : Address) :
    shift (addr ++ place) (addr ++ rest) = addr ++ shift place rest := by
  induction addr with
  | nil => rfl
  | cons i addr ih =>
    rw [List.cons_append, List.cons_append, shift_cons i (by simp [h]), if_pos rfl, ih,
      List.cons_append]

theorem shift_injective (place : Address) : Function.Injective (shift place) := by
  induction place with
  | nil => exact fun a b h => by simpa [shift] using h
  | cons m place ih =>
    intro a b h
    cases a with
    | nil =>
      rw [shift_nil] at h
      exact (shift_eq_nil.mp h.symm).symm
    | cons i a =>
      cases b with
      | nil =>
        rw [shift_nil] at h
        exact shift_eq_nil.mp h
      | cons j b =>
        cases place with
        | nil =>
          simp only [shift] at h
          grind
        | cons n place =>
          simp only [shift_cons m (List.cons_ne_nil n place)] at h
          have hrest := @ih a b
          grind

theorem shift_ne {place : Address} (h : place ≠ []) (addr : Address) :
    shift place addr ≠ place := by
  induction place generalizing addr with
  | nil => exact absurd rfl h
  | cons m place ih =>
    cases addr with
    | nil => simp [shift_nil]
    | cons i addr =>
      cases place with
      | nil =>
        simp only [shift]
        grind
      | cons n place =>
        rw [shift_cons m (List.cons_ne_nil n place)]
        have hrest := ih (List.cons_ne_nil n place) addr
        grind

end Insertion

open Insertion

namespace Stmt

inductive Gains (x : Stmt) : Address → Stmt → Stmt → Prop where
  | here (pre post : List Stmt) (p : Pos) :
      Gains x [pre.length] (block (pre ++ post) p) (block (pre ++ x :: post) p)
  | block {place : Address} {s s' : Stmt} (pre post : List Stmt) (p : Pos)
      (h : Gains x place s s') :
      Gains x (pre.length :: place) (block (pre ++ s :: post) p) (block (pre ++ s' :: post) p)
  | yes {place : Address} {s s' : Stmt} (c : Expr) (no : Option Stmt) (p : Pos)
      (h : Gains x place s s') : Gains x (0 :: place) (ifElse c s no p) (ifElse c s' no p)
  | no {place : Address} {s s' : Stmt} (c : Expr) (yes : Stmt) (p : Pos) (h : Gains x place s s') :
      Gains x (1 :: place) (ifElse c yes (some s) p) (ifElse c yes (some s') p)
  | whileDo {place : Address} {s s' : Stmt} (c : Expr) (p : Pos) (h : Gains x place s s') :
      Gains x (0 :: place) (whileDo c s p) (whileDo c s' p)
  | doWhile {place : Address} {s s' : Stmt} (c : Expr) (p : Pos) (h : Gains x place s s') :
      Gains x (0 :: place) (doWhile s c p) (doWhile s' c p)
  | forDo {place : Address} {s s' : Stmt} (i : Option Simple) (c t : Option Expr) (p : Pos)
      (h : Gains x place s s') : Gains x (1 :: place) (forDo i c t s p) (forDo i c t s' p)
  | switch {place : Address} {s s' : Stmt} (c : Expr) (p : Pos) (h : Gains x place s s') :
      Gains x (0 :: place) (switch c s p) (switch c s' p)
  | case {place : Address} {s s' : Stmt} (v : Option Expr) (p : Pos) (h : Gains x place s s') :
      Gains x (0 :: place) (case v s p) (case v s' p)
  | label {place : Address} {s s' : Stmt} (name : String) (p : Pos) (h : Gains x place s s') :
      Gains x (0 :: place) (label name s p) (label name s' p)

variable {x s s' : Stmt} {place : Address}

theorem Gains.ne_nil (h : Gains x place s s') : place ≠ [] := by
  cases h <;> simp

/-- The statement is put into the block itself, or into one of the parts of a statement. -/
theorem Gains.here_or_part (h : Gains x place s s') :
    (∃ pre post p, place = [pre.length] ∧ s = .block (pre ++ post) p ∧
      s' = .block (pre ++ x :: post) p) ∨ ∃ n rest c c', place = n :: rest ∧ s.Part n c ∧
    s'.Part n c' ∧ Gains x rest c c' := by
  cases h with
  | here pre post p => exact .inl ⟨pre, post, p, rfl, rfl, rfl⟩
  | block pre post p h => exact .inr ⟨_, _, _, _, rfl, .block (by simp), .block (by simp), h⟩
  | yes c no p h => exact .inr ⟨_, _, _, _, rfl, .yes, .yes, h⟩
  | no c yes p h => exact .inr ⟨_, _, _, _, rfl, .no, .no, h⟩
  | whileDo c p h => exact .inr ⟨_, _, _, _, rfl, .whileDo, .whileDo, h⟩
  | doWhile c p h => exact .inr ⟨_, _, _, _, rfl, .doWhile, .doWhile, h⟩
  | forDo i c t p h => exact .inr ⟨_, _, _, _, rfl, .forDo, .forDo, h⟩
  | switch c p h => exact .inr ⟨_, _, _, _, rfl, .switch, .switch, h⟩
  | case v p h => exact .inr ⟨_, _, _, _, rfl, .case, .case, h⟩
  | label name p h => exact .inr ⟨_, _, _, _, rfl, .label, .label, h⟩

theorem Gains.isLoop (h : Gains x place s s') : s'.isLoop = s.isLoop := by
  cases h <;> rfl

theorem Gains.isSwitch (h : Gains x place s s') : s'.isSwitch = s.isSwitch := by
  cases h <;> rfl

theorem Gains.isLabel (h : Gains x place s s') : s'.isLabel = s.isLabel := by
  cases h <;> rfl

end Stmt

namespace Located

/-- A statement before, and the same statement after one is put in: it has gained the new statement,
or it is as it was and all that is in it has moved along. -/
structure Stays (x : Stmt) (place : Address) (l l' : Located) : Prop where
  loops : l'.up.any Stmt.isLoop = l.up.any Stmt.isLoop
  switches : l'.up.any Stmt.isSwitch = l.up.any Stmt.isSwitch
  labels : l'.up.map Stmt.isLabel = l.up.map Stmt.isLabel
  seat : (l'.stmt = l.stmt ∧ ∀ rest, shift place (l.addr ++ rest) = l'.addr ++ rest) ∨
    ∃ rest, l'.addr = l.addr ∧ place = l.addr ++ rest ∧ Stmt.Gains x rest l.stmt l'.stmt

inductive StayAll (x : Stmt) (place : Address) (l l' : Located) : Nat → List Stmt → Nat →
  List Stmt → Prop where
  | nil (n n' : Nat) : StayAll x place l l' n [] n' []
  | cons {n n' : Nat} {s s' : Stmt} {ss ss' : List Stmt}
      (h : Stays x place (l.child n s) (l'.child n' s'))
      (hrest : StayAll x place l l' (n + 1) ss (n' + 1) ss') :
      StayAll x place l l' n (s :: ss) n' (s' :: ss')
  | added {n n' : Nat} {ss ss' : List Stmt} (h : place = l'.addr ++ [n'])
      (hrest : StayAll x place l l' n ss (n' + 1) ss') : StayAll x place l l' n ss n' (x :: ss')

inductive Alike (x : Stmt) (place : Address) (l l' : Located) : Stmt → Stmt → Prop where
  | simple (y : Simple) : Alike x place l l' (.simple y) (.simple y)
  | goto (name : String) (p : Pos) : Alike x place l l' (.goto name p) (.goto name p)
  | ret (v : Option Expr) (p : Pos) : Alike x place l l' (.ret v p) (.ret v p)
  | brk (p : Pos) : Alike x place l l' (.brk p) (.brk p)
  | cont (p : Pos) : Alike x place l l' (.cont p) (.cont p)
  | empty (p : Pos) : Alike x place l l' (.empty p) (.empty p)
  | block {ss ss' : List Stmt} (p : Pos) (h : StayAll x place l l' 0 ss 0 ss') :
      Alike x place l l' (.block ss p) (.block ss' p)
  | ifOnly {a a' : Stmt} (c : Expr) (p : Pos) (h : Stays x place (l.child 0 a) (l'.child 0 a')) :
      Alike x place l l' (.ifElse c a none p) (.ifElse c a' none p)
  | ifElse {a a' b b' : Stmt} (c : Expr) (p : Pos) (h : Stays x place (l.child 0 a) (l'.child 0 a'))
      (h' : Stays x place (l.child 1 b) (l'.child 1 b')) :
      Alike x place l l' (.ifElse c a (some b) p) (.ifElse c a' (some b') p)
  | whileDo {b b' : Stmt} (c : Expr) (p : Pos) (h : Stays x place (l.child 0 b) (l'.child 0 b')) :
      Alike x place l l' (.whileDo c b p) (.whileDo c b' p)
  | doWhile {b b' : Stmt} (c : Expr) (p : Pos) (h : Stays x place (l.child 0 b) (l'.child 0 b')) :
      Alike x place l l' (.doWhile b c p) (.doWhile b' c p)
  | forDo {b b' : Stmt} (i : Option Simple) (c t : Option Expr) (p : Pos)
      (hfirst : ∀ y, Stays x place (l.child 0 (.simple y)) (l'.child 0 (.simple y)))
      (h : Stays x place (l.child 1 b) (l'.child 1 b')) :
      Alike x place l l' (.forDo i c t b p) (.forDo i c t b' p)
  | switch {b b' : Stmt} (c : Expr) (p : Pos) (h : Stays x place (l.child 0 b) (l'.child 0 b')) :
      Alike x place l l' (.switch c b p) (.switch c b' p)
  | case {b b' : Stmt} (v : Option Expr) (p : Pos)
      (h : Stays x place (l.child 0 b) (l'.child 0 b')) :
      Alike x place l l' (.case v b p) (.case v b' p)
  | label {b b' : Stmt} (name : String) (p : Pos)
      (h : Stays x place (l.child 0 b) (l'.child 0 b')) :
      Alike x place l l' (.label name b p) (.label name b' p)

variable {x : Stmt} {place : Address} {l l' : Located}

theorem Stays.whole {s s' : Stmt} (h : Stmt.Gains x place s s') :
    Stays x place ⟨[], [], s⟩ ⟨[], [], s'⟩ :=
  ⟨rfl, rfl, rfl, .inr ⟨place, rfl, rfl, h⟩⟩

theorem Stays.addr (h : Stays x place l l') : l'.addr = shift place l.addr := by
  rcases h.seat with ⟨-, haddr⟩ | ⟨rest, haddr, rfl, hgains⟩
  · simpa using (haddr []).symm
  · have hshift := shift_append hgains.ne_nil l.addr []
    rw [List.append_nil, shift_nil, List.append_nil] at hshift
    rw [hshift, haddr]

theorem Stays.isLoop (h : Stays x place l l') : l'.stmt.isLoop = l.stmt.isLoop := by
  rcases h.seat with ⟨hstmt, -⟩ | ⟨rest, -, -, hgains⟩
  · rw [hstmt]
  · exact hgains.isLoop

theorem Stays.isSwitch (h : Stays x place l l') : l'.stmt.isSwitch = l.stmt.isSwitch := by
  rcases h.seat with ⟨hstmt, -⟩ | ⟨rest, -, -, hgains⟩
  · rw [hstmt]
  · exact hgains.isSwitch

theorem Stays.isLabel (h : Stays x place l l') : l'.stmt.isLabel = l.stmt.isLabel := by
  rcases h.seat with ⟨hstmt, -⟩ | ⟨rest, -, -, hgains⟩
  · rw [hstmt]
  · exact hgains.isLabel

theorem Stays.child (h : Stays x place l l') {n n' : Nat} (s : Stmt)
    (hshift : ∀ rest, shift place (l.addr ++ n :: rest) = l'.addr ++ n' :: rest) :
    Stays x place (l.child n s) (l'.child n' s) := by
  refine ⟨?_, ?_, ?_, .inl ⟨rfl, fun rest => ?_⟩⟩
  · simp [Located.child, h.loops, h.isLoop]
  · simp [Located.child, h.switches, h.isSwitch]
  · simp [Located.child, h.labels, h.isLabel]
  · simpa [Located.child] using hshift rest

theorem Stays.child_gains (h : Stays x place l l') {n : Nat} {s s' : Stmt} {rest : Address}
    (haddr : l'.addr = l.addr) (hplace : place = l.addr ++ n :: rest)
    (hgains : Stmt.Gains x rest s s') : Stays x place (l.child n s) (l'.child n s') := by
  refine ⟨?_, ?_, ?_, .inr ⟨rest, ?_, ?_, hgains⟩⟩
  · simp [Located.child, h.loops, h.isLoop]
  · simp [Located.child, h.switches, h.isSwitch]
  · simp [Located.child, h.labels, h.isLabel]
  · simp [Located.child, haddr]
  · simp [Located.child, hplace]

theorem Stays.stayAll_append (h : Stays x place l l') (pre : List Stmt) {n n' : Nat}
    {ss ss' : List Stmt} (hshift : ∀ i < pre.length, ∀ rest,
      shift place (l.addr ++ (n + i) :: rest) = l'.addr ++ (n' + i) :: rest)
    (hrest : StayAll x place l l' (n + pre.length) ss (n' + pre.length) ss') :
    StayAll x place l l' n (pre ++ ss) n' (pre ++ ss') := by
  induction pre generalizing n n' with
  | nil => exact hrest
  | cons s pre ih =>
    refine .cons (h.child s (hshift 0 (by simp))) (ih (fun i hi rest => ?_) ?_)
    · have hmore := hshift (i + 1) (by simpa using hi) rest
      rwa [Nat.add_comm i, ← Nat.add_assoc, ← Nat.add_assoc] at hmore
    · rwa [List.length_cons, Nat.add_comm pre.length, ← Nat.add_assoc, ← Nat.add_assoc] at hrest

theorem Stays.stayAll (h : Stays x place l l') (ss : List Stmt) {n n' : Nat}
    (hshift : ∀ i < ss.length, ∀ rest, shift place (l.addr ++ (n + i) :: rest) =
      l'.addr ++ (n' + i) :: rest) : StayAll x place l l' n ss n' ss := by
  simpa using h.stayAll_append ss hshift (.nil _ _)

theorem Stays.stayAll_here (h : Stays x place l l') (haddr : l'.addr = l.addr)
    {pre post : List Stmt} (hplace : place = l.addr ++ [pre.length]) :
    StayAll x place l l' 0 (pre ++ post) 0 (pre ++ x :: post) := by
  have hshift : ∀ i rest, shift place (l.addr ++ i :: rest) =
      l'.addr ++ (if i < pre.length then i :: rest else (i + 1) :: rest) := by
    intro i rest
    rw [hplace, shift_append (by simp), haddr, shift]
  refine h.stayAll_append pre (fun i hi rest => ?_)
    (.added (by rw [hplace, haddr, Nat.zero_add]) (h.stayAll post ?_))
  · rw [hshift, Nat.zero_add, if_pos hi]
  · intro i _ rest
    rw [hshift, if_neg (by omega)]
    simp only [Nat.add_right_comm _ 1 i]

theorem Stays.stayAll_part (h : Stays x place l l') (haddr : l'.addr = l.addr)
    {pre post : List Stmt} {s s' : Stmt} {rest : Address}
    (hplace : place = l.addr ++ pre.length :: rest) (hgains : Stmt.Gains x rest s s') :
    StayAll x place l l' 0 (pre ++ s :: post) 0 (pre ++ s' :: post) := by
  have hshift :
      ∀ i ≠ pre.length, ∀ rest, shift place (l.addr ++ i :: rest) = l'.addr ++ i :: rest := by
    intro i hi rest
    rw [hplace, shift_append (by simp), haddr, shift_cons _ hgains.ne_nil, if_neg hi]
  refine h.stayAll_append pre (fun i hi rest => hshift _ (by omega) rest)
    (.cons ?_ (h.stayAll post ?_))
  · rw [Nat.zero_add]
    exact h.child_gains haddr hplace hgains
  · exact fun i _ rest => hshift _ (by omega) rest

theorem Stays.alike {up up' : List Stmt} {a a' : Address} {s s' : Stmt}
    (h : Stays x place ⟨up, a, s⟩ ⟨up', a', s'⟩) : Alike x place ⟨up, a, s⟩ ⟨up', a', s'⟩ s s' := by
  rcases h.seat with ⟨rfl, haddr⟩ | ⟨rest, haddr, hplace, hgains⟩
  · have hpart :
        ∀ n c, Stays x place (Located.child ⟨up, a, s'⟩ n c) (Located.child ⟨up', a', s'⟩ n c) :=
      fun n c => h.child c fun rest => haddr (n :: rest)
    cases s' with
    | simple y => exact .simple y
    | goto name p => exact .goto name p
    | ret v p => exact .ret v p
    | brk p => exact .brk p
    | cont p => exact .cont p
    | empty p => exact .empty p
    | block ss p => exact .block p (h.stayAll ss fun i _ rest => haddr _)
    | ifElse c yes no p =>
      cases no with
      | none => exact .ifOnly c p (hpart 0 yes)
      | some no => exact .ifElse c p (hpart 0 yes) (hpart 1 no)
    | whileDo c b p => exact .whileDo c p (hpart 0 b)
    | doWhile b c p => exact .doWhile c p (hpart 0 b)
    | forDo i c t b p => exact .forDo i c t p (fun y => hpart 0 _) (hpart 1 b)
    | switch c b p => exact .switch c p (hpart 0 b)
    | case v b p => exact .case v p (hpart 0 b)
    | label name b p => exact .label name p (hpart 0 b)
  · have hother : ∀ {m n rest'}, rest = m :: rest' → rest' ≠ [] → n ≠ m → ∀ c,
        Stays x place (Located.child ⟨up, a, s⟩ n c) (Located.child ⟨up', a', s'⟩ n c) := by
      intro m n rest' hrest hne hn c
      refine h.child c fun r => ?_
      rw [hplace, hrest, shift_append (by simp), haddr, shift_cons _ hne, if_neg hn]
    simp only at haddr hplace hgains
    cases hgains with
    | here pre post p => exact .block p (h.stayAll_here haddr hplace)
    | block pre post p hg => exact .block p (h.stayAll_part haddr hplace hg)
    | yes c no p hg =>
      cases no with
      | none => exact .ifOnly c p (h.child_gains haddr hplace hg)
      | some no =>
        exact .ifElse c p (h.child_gains haddr hplace hg) (hother rfl hg.ne_nil (by decide) no)
    | no c yes p hg =>
      exact .ifElse c p (hother rfl hg.ne_nil (by decide) yes) (h.child_gains haddr hplace hg)
    | whileDo c p hg => exact .whileDo c p (h.child_gains haddr hplace hg)
    | doWhile c p hg => exact .doWhile c p (h.child_gains haddr hplace hg)
    | forDo i c t p hg =>
      exact .forDo i c t p (fun y => hother rfl hg.ne_nil (by decide) _)
        (h.child_gains haddr hplace hg)
    | switch c p hg => exact .switch c p (h.child_gains haddr hplace hg)
    | case v p hg => exact .case v p (h.child_gains haddr hplace hg)
    | label name p hg => exact .label name p (h.child_gains haddr hplace hg)

end Located

end JniContracts
