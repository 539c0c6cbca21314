import JniContracts.Proofs.Rendering.Rereading

/-!
How operators group their operands. A sequence of operands with operators between them is read as a
tree in which the operator of a left operand binds at least as tightly as that of the whole, and the
operator of a right operand more tightly. There is one such tree for a sequence.
-/

namespace JniContracts

namespace Expr

inductive Symbol where
  | operand (e : Expr)
  | operator (op : BinOp)

def root? : Expr → Option BinOp
  | binary op _ _ _ => some op
  | _ => none

def symbols : Expr → List Symbol
  | binary op l r _ => l.symbols ++ .operator op :: r.symbols
  | e => [.operand e]

theorem symbols_of_root {e : Expr} (h : e.root? = none) : e.symbols = [.operand e] := by
  cases e with
  | binary => cases h
  | _ => rfl

/-- Operators group to the left, and what binds more tightly groups first. An operation stands where
its first operand stands. -/
inductive Grouped : Expr → Prop where
  | operand {e} (he : e.root? = none) : Grouped e
  | binary {op l r} (hl : Grouped l) (hr : Grouped r)
      (hleft : ∀ o ∈ l.root?, op.precedence ≤ o.precedence)
      (hright : ∀ o ∈ r.root?, op.precedence < o.precedence) : Grouped (binary op l r l.pos)

/-- The operator at the root binds least tightly. -/
theorem Grouped.least {e : Expr} (h : e.Grouped) {n : Nat} (hn : ∀ o ∈ e.root?, n ≤ o.precedence) :
    ∀ op, .operator op ∈ e.symbols → n ≤ op.precedence := by
  induction h generalizing n with
  | operand he => simp [symbols_of_root he]
  | @binary op l r _ _ hleft hright ihl ihr =>
    have hop : n ≤ op.precedence := hn op rfl
    intro x hx
    obtain hx | hx := List.mem_append.mp hx
    · exact ihl (fun o ho => hop.trans (hleft o ho)) x hx
    · obtain hx | hx := List.mem_cons.mp hx
      · cases hx
        exact hop
      · exact ihr (fun o ho => hop.trans (Nat.le_of_lt (hright o ho))) x hx

/-- Behind an operator that binds less tightly than all that follow there is none that binds no more
tightly than it. -/
theorem nothing_between {op op' : BinOp} {r r' between : List Symbol}
    (h : .operator op :: r = between ++ .operator op' :: r')
    (hr : ∀ o, .operator o ∈ r → op.precedence < o.precedence)
    (hbetween : ∀ o, .operator o ∈ between → op'.precedence ≤ o.precedence) : between = [] := by
  cases between with
  | nil => rfl
  | cons x between =>
    obtain ⟨rfl, rfl⟩ := List.cons.inj h
    have hlt := hr op' (by simp)
    have hle := hbetween op (by simp)
    omega

/-- A sequence is split in one way at an operator that binds no more tightly than those before it
and less tightly than those behind it. -/
theorem split_unique {op op' : BinOp} {l r l' r' : List Symbol}
    (h : l ++ .operator op :: r = l' ++ .operator op' :: r')
    (hl : ∀ o, .operator o ∈ l → op.precedence ≤ o.precedence)
    (hr : ∀ o, .operator o ∈ r → op.precedence < o.precedence)
    (hl' : ∀ o, .operator o ∈ l' → op'.precedence ≤ o.precedence)
    (hr' : ∀ o, .operator o ∈ r' → op'.precedence < o.precedence) : l = l' ∧ op = op' ∧ r = r' := by
  have hsame : l = l' := by
    obtain ⟨between, hsplit, hrest⟩ | ⟨between, hsplit, hrest⟩ := List.append_eq_append_iff.mp h
    · have hnone := nothing_between hrest hr fun o ho => hl' o (hsplit ▸ List.mem_append_right _ ho)
      rw [hsplit, hnone, List.append_nil]
    · have hnone := nothing_between hrest hr' fun o ho => hl o (hsplit ▸ List.mem_append_right _ ho)
      rw [hsplit, hnone, List.append_nil]
  subst hsame
  obtain ⟨hop, hrest⟩ := List.cons.inj (List.append_cancel_left h)
  exact ⟨rfl, Symbol.operator.inj hop, hrest⟩

/-- A sequence is grouped in one way. -/
theorem Grouped.unique {e e' : Expr} (h : e.Grouped) (h' : e'.Grouped)
    (hsymbols : e.symbols = e'.symbols) : e = e' := by
  induction h generalizing e' with
  | @operand e he =>
    rw [symbols_of_root he] at hsymbols
    cases h' with
    | operand he' =>
      rw [symbols_of_root he'] at hsymbols
      cases hsymbols
      rfl
    | binary => simp [symbols, List.cons_eq_append_iff] at hsymbols
  | @binary op l r hl hr hleft hright ihl ihr =>
    cases h' with
    | operand he' =>
      rw [symbols_of_root he'] at hsymbols
      simp [symbols, List.append_eq_cons_iff] at hsymbols
    | binary hl' hr' hleft' hright' =>
      obtain ⟨hsl, rfl, hsr⟩ := split_unique hsymbols (hl.least hleft) (hr.least hright)
        (hl'.least hleft') (hr'.least hright')
      obtain rfl := ihl hl' hsl
      obtain rfl := ihr hr' hsr
      rfl

end Expr

namespace Parse

open Expr Rendering

variable {t : Token} {s : State}

/-- A token that is an operand by itself: a name that is no operator, or a number. -/
structure Single where
  token : Token
  plain : token.kind = .number ∨ token.kind = .ident ∧ ∀ op ∈ wordOps, op.text ≠ token.text

namespace Single

def expr (a : Single) : Expr :=
  if a.token.kind = .ident then .name a.token.text a.token.pos
    else .literal a.token.text .number a.token.pos

theorem root?_expr (a : Single) : a.expr.root? = none := by
  rw [expr]
  split <;> rfl

end Single

structure Link where
  op : BinOp
  binary : op ∈ BinOp.infixes
  place : Pos
  operand : Single

namespace Link

def sign (l : Link) : Token := ⟨.punct, l.op.text, l.place⟩

def tokens (l : Link) : List Token := [l.sign, l.operand.token]

def symbols (l : Link) : List Symbol := [.operator l.op, .operand l.operand.expr]

end Link

def suffixSigns : List String := ["(", "[", ".", "->", "++", "--", "::"]

def continuations : List String :=
  suffixSigns ++ BinOp.infixes.map BinOp.text ++ AssignOp.all.map AssignOp.text ++ ["?", ","]

/-- From a place on these operators and operands stand, and behind them a token that goes on with
none. -/
def Ahead (c : Context) : Nat → List Link → Prop
  | i, [] => (c.tokenAt i).isPunctOf continuations = false
  | i, l :: links =>
    c.tokenAt i = l.sign ∧ c.tokenAt (i + 1) = l.operand.token ∧ Ahead c (i + 2) links

section Ahead

variable {c : Context} {i : Nat} {links : List Link}

theorem isPunct_of_continuations (h : t.isPunctOf continuations = false) :
    ∀ text ∈ continuations, t.isPunct text = false := by
  intro text htext
  by_contra hpunct
  simp only [Token.isPunct, Bool.not_eq_false, Bool.and_eq_true, beq_iff_eq] at hpunct
  simp [Token.isPunctOf, hpunct.1, hpunct.2, htext] at h

theorem Ahead.no_suffix (h : Ahead c i links) :
    ∀ text ∈ suffixSigns, (c.tokenAt i).isPunct text = false := by
  intro text htext
  cases links with
  | nil => exact isPunct_of_continuations h text (by simp [continuations, htext])
  | cons l links =>
    have hsigns : ∀ op ∈ BinOp.infixes, ∀ text ∈ suffixSigns, (op.text == text) = false := by decide
    rw [h.1, Link.sign, Token.isPunct]
    exact hsigns l.op l.binary text htext

theorem Ahead.behind {first : List Link} (h : Ahead c i (first ++ links)) :
    Ahead c (i + 2 * first.length) links := by
  induction first generalizing i with
  | nil => exact h
  | cons l first ih =>
    have hrest := ih h.2.2
    rwa [Nat.add_assoc, Nat.add_comm 2, ← Nat.mul_succ] at hrest

theorem find?_stop {α : Type} {all : List α} {text : α → String}
    (hall : ∀ x ∈ all, text x ∈ continuations) (h : t.isPunctOf continuations = false) :
    (if t.kind == .punct then all.find? fun x => text x == t.text else none) = none := by
  split
  · rename_i hkind
    refine List.find?_eq_none.mpr fun x hx heq => ?_
    have hpunct := isPunct_of_continuations h _ (hall x hx)
    rw [Token.isPunct, hkind, beq_iff_eq.mp heq, beq_self_eq_true] at hpunct
    cases hpunct
  · rfl

theorem binaryOp?_stop (h : t.isPunctOf continuations = false) : Exprs.binaryOp? t = none :=
  find?_stop (fun op hop => by simp [continuations, List.mem_map_of_mem hop]) h

theorem assignOp?_stop (h : t.isPunctOf continuations = false) : Exprs.assignOp? t = none :=
  find?_stop (fun op hop => by simp [continuations, List.mem_map_of_mem hop]) h

theorem binaryOp?_sign (l : Link) : Exprs.binaryOp? l.sign = some l.op := by
  have hsigns : ∀ op ∈ BinOp.infixes, BinOp.ofText? op.text = some op := by decide
  exact hsigns l.op l.binary

end Ahead

section Readers

variable {c : Context} {E : Stop → Prop} {s : State} (g : Exprs)

theorem reads_single {a : Single} (h : c.tokenAt s.pos = a.token)
    (hnext : ∀ text ∈ suffixSigns, (c.tokenAt (s.pos + 1)).isPunct text = false) :
    Reads c E g.unaryStep s fun e s' => e = a.expr ∧ s' = s.skip 1 := by
  obtain ⟨rounds, hrounds⟩ : ∃ rounds, c.rounds = rounds + 1 := ⟨_, rfl⟩
  have hmember : (c.tokenAt (s.pos + 1)).isPunctOf [".", "->"] = false := by
    have hdot := hnext "." (by decide)
    have harrow := hnext "->" (by decide)
    simp only [Token.isPunct, Token.isPunctOf] at hdot harrow ⊢
    grind
  have hsuffix :
      Reads c E (g.suffixesFor c.rounds a.expr) (s.skip 1) fun e s' => e = a.expr ∧
      s' = s.skip 1 := by
    rw [hrounds, Exprs.suffixesFor]
    simp only [reads_bind, reads_peek, State.pos_skip, hnext "(" (by decide), hnext "[" (by decide),
      hmember, hnext "++" (by decide), hnext "--" (by decide), Bool.false_eq_true, if_false,
      reads_pure, and_self]
  have hpunct : a.token.kind ≠ .punct := by obtain hk | ⟨hk, -⟩ := a.plain <;> simp [hk]
  have hname : a.token.kind = .ident → ∀ op ∈ wordOps, op.text ≠ a.token.text := by
    intro hident
    obtain hk | ⟨-, hk⟩ := a.plain
    · rw [hk] at hident
      cases hident
    · exact hk
  rw [← h] at hpunct hname
  refine Exprs.reads_operand (fun hk => absurd hk hpunct) hname (fun hk => absurd hk hpunct) ?_
  rw [Exprs.primaryStep]
  simp only [reads_bind, reads_peek, reads_read, h]
  obtain hk | ⟨hk, -⟩ := a.plain
  · have hexpr : a.expr = .literal a.token.text .number a.token.pos := if_neg (by simp [hk])
    rw [hexpr] at hsuffix ⊢
    simp only [hk, reads_bind, reads_pure]
    rw [reads_advance (by simp [Token.isEof, h, hk])]
    exact hsuffix
  · have hexpr : a.expr = .name a.token.text a.token.pos := if_pos hk
    rw [hexpr, hrounds] at hsuffix
    rw [hexpr, hrounds]
    simp only [hk, reads_bind, reads_pure, Exprs.nameFor]
    rw [reads_advance (by simp [Token.isEof, h, hk])]
    simp only [reads_bind, reads_peek, reads_peekAt, reads_ite, reads_pure, State.pos_next,
      hnext "::" (by decide), Bool.false_and, Bool.false_eq_true, if_false]
    exact hsuffix

end Readers

def tight (least : Nat) (links : List Link) : List Link :=
  links.takeWhile fun l => least ≤ l.op.precedence

def loose (least : Nat) (links : List Link) : List Link :=
  links.dropWhile fun l => least ≤ l.op.precedence

section Links

variable {least n : Nat} {links : List Link}

theorem tight_append_loose (least : Nat) (links : List Link) :
    tight least links ++ loose least links = links :=
  List.takeWhile_append_dropWhile

theorem tight_cons {l : Link} (h : least ≤ l.op.precedence) :
    tight least (l :: links) = l :: tight least links :=
  List.takeWhile_cons_of_pos (by simpa using h)

theorem tight_cons_neg {l : Link} (h : ¬ least ≤ l.op.precedence) : tight least (l :: links) = [] :=
  List.takeWhile_cons_of_neg (by simpa using h)

theorem length_loose_le (least : Nat) (links : List Link) :
    (loose least links).length ≤ links.length :=
  (List.dropWhile_sublist _).length_le

theorem head?_loose {l : Link} (h : l ∈ (loose least links).head?) : l.op.precedence < least := by
  have hnot := List.head?_dropWhile_not (fun l : Link => decide (least ≤ l.op.precedence)) links
  rw [loose] at h
  rw [Option.mem_def.mp h] at hnot
  simpa using hnot

theorem tight_split (h : least ≤ n) (links : List Link) :
    tight least links = tight n links ++ tight least (loose n links) := by
  induction links with
  | nil => rfl
  | cons l links ih =>
    by_cases hn : n ≤ l.op.precedence
    · have hloose : loose n (l :: links) = loose n links :=
        List.dropWhile_cons_of_pos (by simpa using hn)
      rw [tight_cons hn, tight_cons (h.trans hn), ih, hloose, List.cons_append]
    · have hloose : loose n (l :: links) = l :: links :=
        List.dropWhile_cons_of_neg (by simpa using hn)
      rw [tight_cons_neg hn, hloose, List.nil_append]

end Links

/-- What is read over the links that bind at least so tightly, behind what was read before. -/
structure Groups (least : Nat) (before : List Symbol) (links : List Link) (s : State) (e : Expr)
  (s' : State) : Prop where
  grouped : e.Grouped
  root : ∀ o ∈ e.root?, least ≤ o.precedence
  symbols : e.symbols = before ++ (tight least links).flatMap Link.symbols
  state : s' = s.skip (2 * (tight least links).length)

def ReadsLinks (c : Context) (E : Stop → Prop) (least : Nat) (m : ParseM Expr) : Prop :=
  ∀ (s : State) (a : Single) (links : List Link), c.tokenAt s.pos = a.token →
    Ahead c (s.pos + 1) links → links.length < c.rounds →
    Reads c E m s (Groups least [.operand a.expr] links (s.skip 1))

variable {links : List Link}

section Climb

variable {c : Context} {E : Stop → Prop} {least : Nat}

/-- One round of the loop: the next operator takes the expression read so far as its left operand,
and the links that bind more tightly as its right one. -/
theorem Groups.step {l : Link} {left right e : Expr} {s' s'' : State} (hl : least ≤ l.op.precedence)
    (hright : Groups (l.op.precedence + 1) [.operand l.operand.expr] links (s.skip 2) right s')
    (h : Groups least (Expr.binary l.op left right left.pos).symbols
      (loose (l.op.precedence + 1) links) s' e s'') :
    Groups least left.symbols (l :: links) s e s'' := by
  have hsplit :
      tight least links =
      tight (l.op.precedence + 1) links ++ tight least (loose (l.op.precedence + 1) links) :=
    tight_split (by omega) links
  refine ⟨h.grouped, h.root, ?_, ?_⟩
  · rw [h.symbols, tight_cons hl, hsplit, Expr.symbols, hright.symbols]
    simp [Link.symbols]
  · rw [h.state, hright.state, State.skip_skip, State.skip_skip, tight_cons hl, hsplit]
    simp only [List.length_cons, List.length_append]
    congr 1
    omega

theorem reads_binaryFor {tighter : Nat → ParseM Expr}
    (htighter : ∀ n, least ≤ n → ReadsLinks c E (n + 1) (tighter (n + 1))) (fuel : Nat)
    {left : Expr} (hleft : left.Grouped) (hroot : ∀ o ∈ left.root?, least ≤ o.precedence)
    (hnext : ∀ o ∈ left.root?, ∀ l ∈ links.head?, l.op.precedence ≤ o.precedence)
    (hahead : Ahead c s.pos links) (hfuel : links.length < fuel)
    (hrounds : links.length < c.rounds) :
    Reads c E (Exprs.binaryFor tighter least fuel left) s (Groups least left.symbols links s) := by
  induction fuel generalizing left links s with
  | zero => exact absurd hfuel (Nat.not_lt_zero _)
  | succ fuel ih =>
    rw [Exprs.binaryFor]
    simp only [reads_bind, reads_peek]
    cases links with
    | nil =>
      simp only [binaryOp?_stop hahead, reads_pure]
      exact ⟨hleft, hroot, (List.append_nil _).symm, rfl⟩
    | cons l links =>
      obtain ⟨hsign, hoperand, hrest⟩ := hahead
      rw [List.length_cons] at hfuel hrounds
      simp only [hsign, binaryOp?_sign, reads_ite, reads_pure]
      split
      · rename_i hl
        rw [reads_bind, reads_advance (by rw [hsign]; rfl), reads_bind]
        have hright :=
          htighter _ hl s.next l.operand links hoperand hrest (Nat.lt_of_succ_lt hrounds)
        refine hright.imp fun right s' hright => ?_
        have hlength := length_loose_le (l.op.precedence + 1) links
        have hloop :
            Reads c E (Exprs.binaryFor tighter least fuel (.binary l.op left right left.pos)) s'
              (Groups least (Expr.binary l.op left right left.pos).symbols
              (loose (l.op.precedence + 1) links) s') := by
          refine ih ?_ ?_ ?_ ?_ ?_ ?_
          · exact .binary hleft hright.grouped (fun o ho => hnext o ho l rfl) hright.root
          · intro o ho
            cases ho
            exact hl
          · intro o ho l' hl'
            cases ho
            exact Nat.le_of_lt_succ (head?_loose hl')
          · rw [← tight_append_loose (l.op.precedence + 1) links] at hrest
            rw [hright.state]
            exact hrest.behind
          · omega
          · omega
        exact hloop.imp fun e s'' he => .step hl hright he
      · rename_i hl
        refine ⟨hleft, hroot, ?_, ?_⟩
        · rw [tight_cons_neg hl, List.flatMap_nil, List.append_nil]
        · rw [tight_cons_neg hl]
          rfl

theorem precedence_lt (l : Link) : l.op.precedence < 14 := by cases l.op <;> decide

/-- With as many levels as there are kinds of operators that bind so tightly, all of them are
read. -/
theorem reads_binary_links (g : Exprs) (levels : Nat) {least : Nat}
    (hlevels : 14 ≤ levels + least) : ReadsLinks c E least (g.binary levels least) := by
  induction levels generalizing least with
  | zero =>
    intro s a links htoken hahead hrounds
    have htight : tight least links = [] := by
      cases links with
      | nil => rfl
      | cons l links => exact tight_cons_neg fun h => by have := precedence_lt l; omega
    refine (reads_single g htoken hahead.no_suffix).imp fun e s' he => ?_
    obtain ⟨rfl, rfl⟩ := he
    refine ⟨.operand a.root?_expr, by simp [a.root?_expr], ?_, ?_⟩
    · rw [htight, symbols_of_root a.root?_expr]
      rfl
    · rw [htight]
      rfl
  | succ levels ih =>
    intro s a links htoken hahead hrounds
    rw [Exprs.binary]
    simp only [reads_bind, reads_read]
    refine (reads_single g htoken hahead.no_suffix).imp fun e s' he => ?_
    obtain ⟨rfl, rfl⟩ := he
    rw [← symbols_of_root a.root?_expr]
    exact reads_binaryFor (fun n hn => ih (by omega)) _ (.operand a.root?_expr)
      (by simp [a.root?_expr]) (by simp [a.root?_expr]) hahead hrounds hrounds

end Climb

theorem Reads.exists_run {α : Type} {c : Context} {m : ParseM α} {Q : α → State → Prop}
    (h : Reads c (fun _ => False) m s Q) : ∃ a s', (m.run c).run s = .ok (a, s') ∧ Q a s' := by
  unfold Reads at h
  split at h
  · rename_i a s' hrun
    exact ⟨a, s', hrun, h⟩
  · exact h.elim

section Whole

variable {c : Context} {E : Stop → Prop}

theorem at_of_drop {i : Nat} {ts : List Token} (h : c.tokens.toList.drop i = t :: ts) :
    c.tokenAt i = t ∧ c.tokens.toList.drop (i + 1) = ts := by
  have hget : c.tokens.toList[i]? = some t := by rw [← List.head?_drop, h, List.head?_cons]
  exact ⟨c.tokenAt_eq (by simpa using hget), by rw [← List.tail_drop, h, List.tail_cons]⟩

theorem ahead_of_drop {i : Nat} {stop : Token} {more : List Token}
    (hstop : stop.isPunctOf continuations = false)
    (h : c.tokens.toList.drop i = links.flatMap Link.tokens ++ stop :: more) : Ahead c i links := by
  induction links generalizing i with
  | nil =>
    rw [Ahead, (at_of_drop h).1]
    exact hstop
  | cons l links ih =>
    have htokens : c.tokens.toList.drop i =
        l.sign :: l.operand.token :: (links.flatMap Link.tokens ++ stop :: more) := h
    obtain ⟨hsign, hbehind⟩ := at_of_drop htokens
    obtain ⟨hoperand, hrest⟩ := at_of_drop hbehind
    exact ⟨hsign, hoperand, ih hrest⟩

theorem tight_all (links : List Link) : tight 4 links = links := by
  have hall : ∀ op ∈ BinOp.infixes, 4 ≤ op.precedence := by decide
  induction links with
  | nil => rfl
  | cons l links ih => rw [tight_cons (hall l.op l.binary), ih]

theorem reads_expressionStep (g : Exprs) {a : Single} (htoken : c.tokenAt s.pos = a.token)
    (hahead : Ahead c (s.pos + 1) links) (hrounds : links.length < c.rounds) :
    Reads c E g.expressionStep s fun e s' => e.Grouped ∧
    e.symbols = .operand a.expr :: links.flatMap Link.symbols ∧
    s' = s.skip (2 * links.length + 1) := by
  have hstop : (c.tokenAt (s.pos + (2 * links.length + 1))).isPunctOf continuations = false := by
    rw [← List.append_nil links] at hahead
    rw [Nat.add_comm (2 * links.length), ← Nat.add_assoc]
    exact hahead.behind
  have hassign := assignOp?_stop hstop
  have hquestion := isPunct_of_continuations hstop "?" (by decide)
  have hcomma := isPunct_of_continuations hstop "," (by decide)
  obtain ⟨rounds, hround⟩ : ∃ rounds, c.rounds = rounds + 1 := ⟨_, rfl⟩
  have hbinary : Reads c E (g.binary 10 4) s fun e s' => e.Grouped ∧
      e.symbols = .operand a.expr :: links.flatMap Link.symbols ∧
      s' = s.skip (2 * links.length + 1) := by
    refine (reads_binary_links g 10 (by decide) s a links htoken hahead hrounds).imp
      fun e s' he => ?_
    have hsymbols := he.symbols
    have hstate := he.state
    rw [tight_all] at hsymbols hstate
    rw [State.skip_skip, Nat.add_comm] at hstate
    exact ⟨he.grouped, hsymbols, hstate⟩
  rw [Exprs.expressionStep, Exprs.assignmentStep, Exprs.conditionalStep]
  simp only [reads_bind, reads_accept, reads_read, reads_peek]
  refine hbinary.imp fun e s' he => ?_
  obtain ⟨hgrouped, hsymbols, rfl⟩ := he
  simp only [State.pos_skip, hquestion, Bool.false_eq_true, if_false, reads_pure, hassign, hround,
    Exprs.commasFor, reads_bind, reads_peek, reads_accept, hcomma, and_true]
  exact ⟨hgrouped, hsymbols⟩

/-- For every sequence of operands that are single tokens with operators between them, of any length
and wherever it stands, the reader of expressions comes to the end of the sequence with a tree that
reads like it from left to right and in which the operator of a left operand binds at least as
tightly as that of the whole and the operator of a right operand more tightly. No other tree is like
that. -/
theorem expression_groups (levels : Nat) (c : Context) (s : State) (first : Single)
    (links : List Link) (stop : Token) (more : List Token)
    (hstop : stop.isPunctOf continuations = false)
    (htokens : c.tokens.toList.drop s.pos =
      first.token :: (links.flatMap Link.tokens ++ stop :: more)) :
    ∃ e, ((Exprs.within (levels + 1)).expression.run c).run s =
        .ok (e, s.skip (2 * links.length + 1)) ∧
      e.Grouped ∧ e.symbols = .operand first.expr :: links.flatMap Link.symbols ∧
      ∀ e' : Expr, e'.Grouped →
        e'.symbols = .operand first.expr :: links.flatMap Link.symbols → e' = e := by
  obtain ⟨hfirst, hrest⟩ := at_of_drop htokens
  have hrounds : links.length < c.rounds := by
    have hlength := congrArg List.length htokens
    have hlinks : (links.flatMap Link.tokens).length = 2 * links.length := by
      simp [Link.tokens, List.length_flatMap, Nat.mul_comm]
    have hsize := c.sub_lt_rounds s.pos
    simp only [List.length_drop, Array.length_toList, List.length_cons, List.length_append,
      hlinks] at hlength
    omega
  obtain ⟨e, s', hrun, hgrouped, hsymbols, rfl⟩ :=
    (reads_expressionStep (Exprs.within levels) hfirst
      (ahead_of_drop hstop hrest) hrounds).exists_run
  exact ⟨e, hrun, hgrouped, hsymbols,
    fun e' he' hs' => he'.unique hgrouped (hs'.trans hsymbols.symm)⟩

end Whole

section Chain

def variableAt (n : String) (hn : ∀ op ∈ wordOps, op.text ≠ n) (col : Nat) : Single :=
  ⟨⟨.ident, n, ⟨1, col⟩⟩, .inr ⟨rfl, hn⟩⟩

def chainLinks : List Link :=
  [⟨.sub, by decide, ⟨1, 3⟩, variableAt "b" (by decide) 5⟩,
    ⟨.mul, by decide, ⟨1, 7⟩, variableAt "c" (by decide) 9⟩,
    ⟨.sub, by decide, ⟨1, 11⟩, variableAt "d" (by decide) 13⟩]

def chainContext : Context where
  tokens := ((variableAt "a" (by decide) 1).token ::
      (chainLinks.flatMap Link.tokens ++ [⟨.eof, "", ⟨1, 14⟩⟩])).toArray
  last := ⟨.eof, "", ⟨1, 14⟩⟩
  partners := #[]
  interfaceTypes := []

theorem expression_groups_chain :
    ((Exprs.within 1).expression.run chainContext).run ⟨0, [], []⟩ =
    .ok (.binary .sub (.binary .sub (.name "a" ⟨1, 1⟩) (.binary .mul (.name "b" ⟨1, 5⟩)
      (.name "c" ⟨1, 9⟩) ⟨1, 5⟩) ⟨1, 1⟩) (.name "d" ⟨1, 13⟩) ⟨1, 1⟩, ⟨7, [], []⟩) := by
  obtain ⟨e, hrun, -, -, hunique⟩ := expression_groups 0 chainContext ⟨0, [], []⟩
    (variableAt "a" (by decide) 1) chainLinks ⟨.eof, "", ⟨1, 14⟩⟩ [] (by decide) (by rfl)
  rw [hunique (.binary .sub (.binary .sub _ (.binary .mul _ _ _) _) _ _) ?_ rfl]
  · exact hrun
  · refine .binary (.binary (.operand rfl) (.binary (.operand rfl) (.operand rfl) ?_ ?_) ?_ ?_)
      (.operand rfl) ?_ ?_
    all_goals
      intro o ho
      cases ho
    all_goals decide

end Chain

end Parse

end JniContracts
