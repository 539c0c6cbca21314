import JniContracts.Proofs.Execution
import Mathlib.Data.List.Basic
import Mathlib.Logic.Relation

/-!
How statements lie in a control-flow graph. A chart is a graph seen from its block numbers: the code
of each block and the edges out of it. The relation between statements and charts says where a
statement starts, where control comes out of it, and which edges there are on the way.
-/

namespace JniContracts.Flow

open Execution

structure Chart where
  code : Nat → List Element
  out : Nat → List Edge

def decided (es : List Element) (kind : EdgeKind) : List Event :=
  match es.getLast?, kind with
  | some e, .branchTrue => if e.isBranch then [.chose e true] else []
  | some e, .branchFalse => if e.isBranch then [.chose e false] else []
  | _, _ => []

theorem decided_eq_nil {es : List Element} {kind : EdgeKind}
    (h : kind ≠ .branchTrue ∧ kind ≠ .branchFalse) : decided es kind = [] := by
  unfold decided
  split <;> simp_all

namespace Chart

variable {p q : Position} {es : List Event}

inductive Step (C : Chart) : Position → List Event → Position → Prop where
  | read {p e} (h : (C.code p.block)[p.index]? = some e) : Step C p [.ran e] ⟨p.block, p.index + 1⟩
  | follow {p e} (h : p.index = (C.code p.block).length) (he : e ∈ C.out p.block) :
      Step C p (decided (C.code p.block) e.kind) ⟨e.target, 0⟩

inductive Steps (C : Chart) : Position → List Event → Position → Prop where
  | refl (p : Position) : Steps C p [] p
  | step {p q r : Position} {es fs : List Event} :
      Step C p es q → Steps C q fs r → Steps C p (es ++ fs) r

theorem Step.steps {C : Chart} (h : C.Step p es q) : C.Steps p es q := by
  simpa using Steps.step h (.refl q)

theorem Steps.append {C : Chart} {p q r : Position} {es fs : List Event} (h : C.Steps p es q)
    (h' : C.Steps q fs r) : C.Steps p (es ++ fs) r := by
  induction h with
  | refl p => exact h'
  | step hs _ ih => simpa using Steps.step hs (ih h')

def Reads (C : Chart) (p : Position) (es : List Element) (q : Position) : Prop :=
  es <+: (C.code p.block).drop p.index ∧ q = ⟨p.block, p.index + es.length⟩

def Ends (C : Chart) (p : Position) (edges : List Edge) : Prop :=
  p.index = (C.code p.block).length ∧ C.out p.block = edges

/-- From `p` control goes to the block `t` and nowhere else, and nothing is to be seen of it. -/
def Leads (C : Chart) (p : Position) (t : Nat) : Prop :=
  ∃ kind, C.Ends p [⟨p.block, t, kind⟩] ∧ decided (C.code p.block) kind = []

def Skips (C : Chart) : Position → Position → Prop :=
  Relation.ReflTransGen fun p q => ∃ t, C.Leads p t ∧ q = ⟨t, 0⟩

theorem Reads.nil {C : Chart} (h : C.Reads p [] q) : q = p := h.2

theorem Reads.code {C : Chart} {e : Element} (h : C.Reads p [e] q) :
    (C.code p.block)[p.index]? = some e ∧ q = ⟨p.block, p.index + 1⟩ := by
  obtain ⟨⟨rest, hrest⟩, hq⟩ := h
  have he := congrArg (fun l => l[0]?) hrest
  exact ⟨by simpa using he.symm, hq⟩

theorem Reads.steps {C : Chart} {es : List Element} (h : C.Reads p es q) :
    C.Steps p (ran es) q := by
  induction es generalizing p with
  | nil =>
    rw [h.nil]
    exact .refl p
  | cons e es ih =>
    obtain ⟨⟨rest, hrest⟩, rfl⟩ := h
    have he : (C.code p.block)[p.index]? = some e := by
      have h₀ := congrArg (fun l => l[0]?) hrest
      simpa using h₀.symm
    have hd : es <+: (C.code p.block).drop (p.index + 1) :=
      ⟨rest, by simpa using congrArg List.tail hrest⟩
    refine Steps.step (.read he) (ih ⟨hd, ?_⟩)
    simp [Nat.add_assoc, Nat.add_comm 1]

theorem Reads.only {C : Chart} {p q r : Position} {e : Element}
    (h : C.Reads p [e] q) (hs : C.Step p es r) : es = [.ran e] ∧ r = q := by
  obtain ⟨he, rfl⟩ := h.code
  cases hs with
  | read h' =>
    rw [he] at h'
    cases h'
    exact ⟨rfl, rfl⟩
  | follow h' _ =>
    have hlt := (List.getElem?_eq_some_iff.mp he).1
    omega

theorem Ends.only {C : Chart} {p r : Position} {edges : List Edge} (h : C.Ends p edges)
    (hs : C.Step p es r) :
    ∃ e ∈ edges, es = decided (C.code p.block) e.kind ∧ r = ⟨e.target, 0⟩ := by
  cases hs with
  | read h' =>
    have hlt := (List.getElem?_eq_some_iff.mp h').1
    have hi := h.1
    omega
  | follow _ he => exact ⟨_, h.2 ▸ he, rfl, rfl⟩

theorem Ends.step {C : Chart} {p : Position} {edges : List Edge} {e : Edge} (h : C.Ends p edges)
    (he : e ∈ edges) : C.Step p (decided (C.code p.block) e.kind) ⟨e.target, 0⟩ :=
  .follow h.1 (h.2.symm ▸ he)

theorem Leads.step {C : Chart} {p : Position} {t : Nat} (h : C.Leads p t) : C.Step p [] ⟨t, 0⟩ := by
  obtain ⟨kind, he, hd⟩ := h
  rw [← hd]
  exact he.step (List.mem_singleton.mpr rfl)

theorem Leads.only {C : Chart} {p r : Position} {t : Nat} (h : C.Leads p t)
    (hs : C.Step p es r) : es = [] ∧ r = ⟨t, 0⟩ := by
  obtain ⟨kind, he, hd⟩ := h
  obtain ⟨e, hm, rfl, rfl⟩ := he.only hs
  rw [List.mem_singleton.mp hm]
  exact ⟨hd, rfl⟩

theorem Skips.refl {C : Chart} (p : Position) : C.Skips p p := Relation.ReflTransGen.refl

theorem Leads.skips {C : Chart} {p : Position} {t : Nat} (h : C.Leads p t) : C.Skips p ⟨t, 0⟩ :=
  .single ⟨t, h, rfl⟩

theorem Skips.steps {C : Chart} (h : C.Skips p q) : C.Steps p [] q := by
  induction h with
  | refl => exact .refl p
  | tail _ h ih =>
    obtain ⟨t, hl, rfl⟩ := h
    exact ih.append hl.step.steps

theorem Skips.cases {C : Chart} (h : C.Skips p q) :
    p = q ∨ ∃ t, C.Leads p t ∧ C.Skips ⟨t, 0⟩ q := by
  rcases Relation.ReflTransGen.cases_head h with h | ⟨r, ⟨t, hl, rfl⟩, h⟩
  · exact .inl h
  · exact .inr ⟨t, hl, h⟩

end Chart

/-- The blocks of a loop: where its condition is, where its body goes on, where the body starts, and
what is behind the loop. -/
structure LoopBlocks where
  header : Nat
  cont : Nat
  body : Nat
  after : Nat

def bodyEdge : Stmt → EdgeKind
  | .doWhile .. => .backEdge
  | _ => .branchTrue

mutual
/-- A statement lies in a chart from `p` on. Control comes out of it at `out`, if it does. `labels`
are the blocks of labels, and the list at the end has the blocks of the cases that belong to the
switch around the statement. -/
inductive Laid (C : Chart) (exits : List String) (labels : List (String × Nat)) :
    Scope → Located → Position → Option Position → List Nat → Prop where
  | block {sc up addr ss pos p out cs}
      (h : LaidAll C exits labels sc ⟨up, addr, .block ss pos⟩ 0 ss (some p) out cs) :
      Laid C exits labels sc ⟨up, addr, .block ss pos⟩ p out cs
  | simple {sc up addr x p q} (hx : x.leaves exits = false)
      (h : C.Reads p (Located.evaluated ⟨up, addr, .simple x⟩ .stmt x) q) :
      Laid C exits labels sc ⟨up, addr, .simple x⟩ p (some q) []
  | exitCall {sc up addr x p q} (hx : x.leaves exits = true)
      (h : C.Reads p [Located.element ⟨up, addr, .simple x⟩ .stmt x.exprs] q)
        (ht : C.Leads q exitId) :
      Laid C exits labels sc ⟨up, addr, .simple x⟩ p none []
  | ret {sc up addr v pos p q}
      (h : C.Reads p [Located.element ⟨up, addr, .ret v pos⟩ .ret v.toList] q)
        (ht : C.Leads q exitId) :
      Laid C exits labels sc ⟨up, addr, .ret v pos⟩ p none []
  | goto {sc up addr name pos p q t}
      (h : C.Reads p [Located.element ⟨up, addr, .goto name pos⟩ .goto []] q)
      (hl : (name, t) ∈ labels) (ht : C.Leads q t) :
      Laid C exits labels sc ⟨up, addr, .goto name pos⟩ p none []
  | brk {sc up addr pos p t} (h : sc.brk = some t) (ht : C.Leads p t) :
      Laid C exits labels sc ⟨up, addr, .brk pos⟩ p none []
  | cont {sc up addr pos p t} (h : sc.cont = some t) (ht : C.Leads p t) :
      Laid C exits labels sc ⟨up, addr, .cont pos⟩ p none []
  | empty {sc up addr pos p} : Laid C exits labels sc ⟨up, addr, .empty pos⟩ p (some p) []
  | ifElse {sc up addr c a b pos p q yes no join out out' cs cs'}
      (hc : C.Reads p [Located.element ⟨up, addr, .ifElse c a (some b) pos⟩ .cond [c]] q)
      (he : C.Ends q [⟨q.block, yes, .branchTrue⟩, ⟨q.block, no, .branchFalse⟩])
      (ha : Laid C exits labels sc (Located.child ⟨up, addr, .ifElse c a (some b) pos⟩ 0 a)
        ⟨yes, 0⟩ out cs)
      (hb : Laid C exits labels sc (Located.child ⟨up, addr, .ifElse c a (some b) pos⟩ 1 b)
        ⟨no, 0⟩ out' cs')
      (hj : ∀ o ∈ out, C.Leads o join) (hj' : ∀ o ∈ out', C.Leads o join) :
      Laid C exits labels sc ⟨up, addr, .ifElse c a (some b) pos⟩ p (some ⟨join, 0⟩) (cs ++ cs')
  | ifOnly {sc up addr c a pos p q yes join out cs}
      (hc : C.Reads p [Located.element ⟨up, addr, .ifElse c a none pos⟩ .cond [c]] q)
      (he : C.Ends q [⟨q.block, yes, .branchTrue⟩, ⟨q.block, join, .branchFalse⟩])
      (ha : Laid C exits labels sc (Located.child ⟨up, addr, .ifElse c a none pos⟩ 0 a)
        ⟨yes, 0⟩ out cs)
      (hj : ∀ o ∈ out, C.Leads o join) :
      Laid C exits labels sc ⟨up, addr, .ifElse c a none pos⟩ p (some ⟨join, 0⟩) cs
  | whileDo {sc up addr c b pos p m cs}
      (h : LaidLoop C exits labels sc ⟨up, addr, .whileDo c b pos⟩ m cs) (ht : C.Leads p m.header) :
      Laid C exits labels sc ⟨up, addr, .whileDo c b pos⟩ p (some ⟨m.after, 0⟩) cs
  | doWhile {sc up addr c b pos p m cs}
      (h : LaidLoop C exits labels sc ⟨up, addr, .doWhile b c pos⟩ m cs) (ht : C.Leads p m.body) :
      Laid C exits labels sc ⟨up, addr, .doWhile b c pos⟩ p (some ⟨m.after, 0⟩) cs
  | forDo {sc up addr i c t b pos p q m cs}
      (hi : C.Reads p (Located.initial ⟨up, addr, .forDo i c t b pos⟩) q)
      (h : LaidLoop C exits labels sc ⟨up, addr, .forDo i c t b pos⟩ m cs)
        (ht : C.Leads q m.header) :
      Laid C exits labels sc ⟨up, addr, .forDo i c t b pos⟩ p (some ⟨m.after, 0⟩) cs
  | switch {sc up addr c b pos p q after body d out cs}
      (hc : C.Reads p [Located.element ⟨up, addr, .switch c b pos⟩ .cond [c]] q)
      (he : C.Ends q ((cs.map fun t => ⟨q.block, t, .switchCase⟩) ++
        if hasDefault b then [] else [⟨q.block, after, .switchCase⟩]))
      (hb : Laid C exits labels { sc with brk := some after, dispatch := d }
        (Located.child ⟨up, addr, .switch c b pos⟩ 0 b) ⟨body, 0⟩ out cs)
      (hj : ∀ o ∈ out, C.Leads o after) :
      Laid C exits labels sc ⟨up, addr, .switch c b pos⟩ p (some ⟨after, 0⟩) []
  | case {sc up addr v s pos p t out cs} (ht : C.Leads p t)
      (h : Laid C exits labels sc (Located.child ⟨up, addr, .case v s pos⟩ 0 s) ⟨t, 0⟩ out cs) :
      Laid C exits labels sc ⟨up, addr, .case v s pos⟩ p out (t :: cs)
  | label {sc up addr name s pos p t out cs} (hl : (name, t) ∈ labels) (ht : C.Leads p t)
      (h : Laid C exits labels sc (Located.child ⟨up, addr, .label name s pos⟩ 0 s) ⟨t, 0⟩ out cs) :
      Laid C exits labels sc ⟨up, addr, .label name s pos⟩ p out cs

inductive LaidAll (C : Chart) (exits : List String) (labels : List (String × Nat)) :
    Scope → Located → Nat → List Stmt → Option Position → Option Position → List Nat → Prop where
  | nil {sc l n cur} : LaidAll C exits labels sc l n [] cur cur []
  | cons {sc l n s ss cur p mid out cs cs'} (hp : ∀ q ∈ cur, q = p)
      (h : Laid C exits labels sc (l.child n s) p mid cs)
      (hs : LaidAll C exits labels sc l (n + 1) ss mid out cs') :
      LaidAll C exits labels sc l n (s :: ss) cur out (cs ++ cs')

inductive LaidLoop (C : Chart) (exits : List String) (labels : List (String × Nat)) :
    Scope → Located → LoopBlocks → List Nat → Prop where
  | mk {sc l b m out cs} (hb : l.loopBody? = some b) (hc : C.code m.header = l.condition)
      (he : C.out
        m.header = (if l.stmt.mayRepeat then [⟨m.header, m.body, bodyEdge l.stmt⟩] else []) ++
        if l.stmt.mayEnd then [⟨m.header, m.after, .branchFalse⟩] else [])
      (ha : (m.cont = m.header ∧ l.advance = []) ∨
        (C.code m.cont = l.advance ∧ C.Leads ⟨m.cont, l.advance.length⟩ m.header))
      (h : Laid C exits labels { sc with brk := some m.after, cont := some m.cont } b
        ⟨m.body, 0⟩ out cs)
      (hj : ∀ o ∈ out, C.Leads o m.cont) : LaidLoop C exits labels sc l m cs
end

variable (C : Chart) (exits : List String) (labels : List (String × Nat))

mutual
/-- The jumps out of a place lead where its continuation says. -/
def Fits : Cont → Scope → Prop
  | .stop, sc => sc.brk = none ∧ sc.cont = none
  | .rest _ _ _ k, sc => Fits k sc
  | .loop l k, sc => ∃ outer m cs, LaidLoop C exits labels outer l m cs ∧
      sc.brk = some m.after ∧ sc.cont = some m.cont ∧ Fits k outer ∧ Falls k ⟨m.after, 0⟩
  | .switch k, sc => ∃ outer after, sc.brk = some after ∧ sc.cont = outer.cont ∧ Fits k outer ∧
      Falls k ⟨after, 0⟩

def Falls : Cont → Position → Prop
  | .stop, p => C.Skips p ⟨exitId, 0⟩
  | .rest l n ss k, p =>
    ∃ q sc out cs, C.Skips p q ∧ LaidAll C exits labels sc l n ss (some q) out cs ∧ Fits k sc ∧
      ∀ o ∈ out, Falls k o
  | .loop l k, p => ∃ outer m cs, LaidLoop C exits labels outer l m cs ∧ C.Skips p ⟨m.cont, 0⟩ ∧
      Fits k outer ∧ Falls k ⟨m.after, 0⟩
  | .switch k, p => Falls k p
end

def Placed (l : Located) (k : Cont) (p : Position) (cs : List Nat) : Prop :=
  ∃ sc out, Laid C exits labels sc l p out cs ∧ Fits C exits labels k sc ∧
    ∀ o ∈ out, Falls C exits labels k o

inductive Chooses : Located → Cont → Position → Prop where
  | ifElse {up addr c a b pos k p yes no cs cs'}
      (hl : (C.code p.block).getLast? =
        some (Located.element ⟨up, addr, .ifElse c a (some b) pos⟩ .cond [c]))
      (he : C.Ends p [⟨p.block, yes, .branchTrue⟩, ⟨p.block, no, .branchFalse⟩])
      (ha : Placed C exits labels (Located.child ⟨up, addr, .ifElse c a (some b) pos⟩ 0 a) k
        ⟨yes, 0⟩ cs)
      (hb : Placed C exits labels (Located.child ⟨up, addr, .ifElse c a (some b) pos⟩ 1 b) k
        ⟨no, 0⟩ cs') :
      Chooses ⟨up, addr, .ifElse c a (some b) pos⟩ k p
  | ifOnly {up addr c a pos k p yes join cs}
      (hl : (C.code p.block).getLast? =
        some (Located.element ⟨up, addr, .ifElse c a none pos⟩ .cond [c]))
      (he : C.Ends p [⟨p.block, yes, .branchTrue⟩, ⟨p.block, join, .branchFalse⟩])
      (ha : Placed C exits labels (Located.child ⟨up, addr, .ifElse c a none pos⟩ 0 a) k
        ⟨yes, 0⟩ cs)
      (hj : Falls C exits labels k ⟨join, 0⟩) :
      Chooses ⟨up, addr, .ifElse c a none pos⟩ k p
  | loop {l k outer m cs} (h : LaidLoop C exits labels outer l m cs)
      (hk : Fits C exits labels k outer) (hf : Falls C exits labels k ⟨m.after, 0⟩) :
      Chooses l k ⟨m.header, l.condition.length⟩
  | switch {up addr c b pos k p after body cs}
      (hl : (C.code p.block).getLast? =
          some (Located.element ⟨up, addr, .switch c b pos⟩ .cond [c]))
      (he : C.Ends p ((cs.map fun t => ⟨p.block, t, .switchCase⟩) ++
        if hasDefault b then [] else [⟨p.block, after, .switchCase⟩]))
      (hb : Placed C exits labels (Located.child ⟨up, addr, .switch c b pos⟩ 0 b) (.switch k)
        ⟨body, 0⟩ cs)
      (hf : Falls C exits labels k ⟨after, 0⟩) :
      Chooses ⟨up, addr, .switch c b pos⟩ k p

/-- A state of an execution sits at a position of the chart, perhaps some silent edges ahead of
it. -/
def Sits : State → Position → Prop
  | .run l k, p => ∃ q cs, C.Skips p q ∧ Placed C exits labels l k q cs
  | .fall k, p => Falls C exits labels k p
  | .test l k, p => ∃ outer m cs, LaidLoop C exits labels outer l m cs ∧ C.Skips p ⟨m.header, 0⟩ ∧
      Fits C exits labels k outer ∧ Falls C exits labels k ⟨m.after, 0⟩
  | .again l k, p => ∃ outer m cs, LaidLoop C exits labels outer l m cs ∧ C.Skips p ⟨m.cont, 0⟩ ∧
      Fits C exits labels k outer ∧ Falls C exits labels k ⟨m.after, 0⟩
  | .choose l k, p => Chooses C exits labels l k p
  | .left, p => C.Skips p ⟨exitId, 0⟩

variable {C exits labels}

variable {k : Cont}

theorem Falls.skip {p q : Position} (hs : C.Skips p q) (h : Falls C exits labels k q) :
    Falls C exits labels k p := by
  induction k with
  | stop => exact Relation.ReflTransGen.trans hs h
  | rest l n ss k _ =>
    obtain ⟨r, sc, out, cs, hr, h⟩ := h
    exact ⟨r, sc, out, cs, Relation.ReflTransGen.trans hs hr, h⟩
  | loop l k _ =>
    obtain ⟨outer, m, cs, hl, hr, h⟩ := h
    exact ⟨outer, m, cs, hl, Relation.ReflTransGen.trans hs hr, h⟩
  | switch k ih => exact ih h

variable {p : Position} {t : Nat}

theorem Falls.lead (hl : C.Leads p t)
    (h : Falls C exits labels k ⟨t, 0⟩) : Falls C exits labels k p := h.skip hl.skips

variable {sc : Scope}

theorem Fits.brk (h : Fits C exits labels k sc)
    (ht : sc.brk = some t) : ∃ k', k.behind? = some k' ∧ Falls C exits labels k' ⟨t, 0⟩ := by
  induction k generalizing sc with
  | stop => cases ht.symm.trans h.1
  | rest l n ss k ih => exact ih h ht
  | loop l k _ =>
    obtain ⟨outer, m, cs, -, hb, -, -, hf⟩ := h
    cases ht.symm.trans hb
    exact ⟨k, rfl, hf⟩
  | switch k _ =>
    obtain ⟨outer, after, hb, -, -, hf⟩ := h
    cases ht.symm.trans hb
    exact ⟨k, rfl, hf⟩

/-- A `continue` goes on in the innermost loop, through a switch if need be. -/
theorem Fits.cont (h : Fits C exits labels k sc) (ht : sc.cont = some t) :
    ∃ l k', k.innermost? = some (l, k') ∧ Sits C exits labels (.again l k') ⟨t, 0⟩ := by
  induction k generalizing sc with
  | stop => cases ht.symm.trans h.2
  | rest l n ss k ih => exact ih h ht
  | loop l k _ =>
    obtain ⟨outer, m, cs, hl, -, hc, hk, hf⟩ := h
    cases ht.symm.trans hc
    exact ⟨l, k, rfl, outer, m, cs, hl, .refl _, hk, hf⟩
  | switch k ih =>
    obtain ⟨outer, after, -, hc, hk, -⟩ := h
    exact ih hk (hc.symm.trans ht)

variable {cs : List Nat} {l : Located}

theorem LaidLoop.placed {m : LoopBlocks} (h : LaidLoop C exits labels sc l m cs)
    (hk : Fits C exits labels k sc) (hf : Falls C exits labels k ⟨m.after, 0⟩) :
    ∃ b, l.loopBody? = some b ∧ Placed C exits labels b (.loop l k) ⟨m.body, 0⟩ cs := by
  have hl := h
  obtain ⟨hb, -, -, -, hbody, hj⟩ := h
  refine ⟨_, hb, _, _, hbody, ⟨sc, m, cs, hl, rfl, rfl, hk, hf⟩, fun o ho => ?_⟩
  exact ⟨sc, m, cs, hl, (hj o ho).skips, hk, hf⟩

theorem LaidAll.part {n : Nat} {pre post : List Stmt} {s : Stmt} {cur out : Option Position}
    (h : LaidAll C exits labels sc l n (pre ++ s :: post) cur out cs)
    (hk : Fits C exits labels k sc) (hf : ∀ o ∈ out, Falls C exits labels k o) :
    ∃ p cs',
    Placed C exits labels (l.child (n + pre.length) s) (.rest l (n + pre.length + 1) post k) p cs' ∧
    cs' ⊆ cs := by
  induction pre generalizing n cur cs with
  | nil =>
    cases h with
    | @cons _ _ _ _ _ _ p mid _ cs₁ cs₂ hp h hs =>
      refine ⟨p, cs₁, ⟨sc, mid, h, hk, fun o ho => ?_⟩, by simp⟩
      exact ⟨o, sc, out, cs₂, .refl o, ho ▸ hs, hk, hf⟩
  | cons s' pre ih =>
    cases h with
    | cons hp h hs =>
      obtain ⟨p, cs', hpl, hsub⟩ := ih hs
      have hn : n + (s' :: pre).length = n + 1 + pre.length := by
        rw [List.length_cons]
        omega
      rw [hn]
      exact ⟨p, cs', hpl, fun t ht => List.mem_append.mpr (.inr (hsub ht))⟩

theorem LaidAll.mem_part {n : Nat} {ss : List Stmt} {cur out : Option Position}
    (h : LaidAll C exits labels sc l n ss cur out cs) (hk : Fits C exits labels k sc)
    (hf : ∀ o ∈ out, Falls C exits labels k o) (ht : t ∈ cs) :
    ∃ (pre : List Stmt) (s : Stmt) (post : List Stmt) (p : Position) (cs' : List Nat),
    ss = pre ++ s :: post ∧
    Placed C exits labels (l.child (n + pre.length) s) (.rest l (n + pre.length + 1) post k) p cs' ∧
    t ∈ cs' := by
  induction ss generalizing n cur cs with
  | nil =>
    cases h
    simp at ht
  | cons s ss ih =>
    cases h with
    | @cons _ _ _ _ _ _ p mid _ cs₁ cs₂ hp h hs =>
      rcases List.mem_append.mp ht with ht | ht
      · refine ⟨[], s, ss, p, cs₁, rfl, ⟨sc, mid, h, hk, fun o ho => ?_⟩, ht⟩
        exact ⟨o, sc, out, cs₂, .refl o, ho ▸ hs, hk, hf⟩
      · obtain ⟨pre, s', post, p', cs', rfl, hpl, ht'⟩ := ih hs ht
        have hn : n + (s :: pre).length = n + 1 + pre.length := by
          rw [List.length_cons]
          omega
        exact ⟨s :: pre, s', post, p', cs', rfl, hn ▸ hpl, ht'⟩

theorem Placed.part {l l' : Located} {k k' : Cont} (hp : Part l k l' k')
    (h : Placed C exits labels l k p cs) :
    ∃ p' cs', Placed C exits labels l' k' p' cs' ∧ (l.stmt.isSwitch = false → cs' ⊆ cs) := by
  obtain ⟨sc, out, hl, hk, hf⟩ := h
  cases hp with
  | block =>
    cases hl with
    | block h =>
      obtain ⟨p', cs', hpl, hsub⟩ := h.part hk hf
      rw [Nat.zero_add] at hpl
      exact ⟨p', cs', hpl, fun _ => hsub⟩
  | yes =>
    cases hl with
    | ifElse _ _ ha _ hj _ =>
      exact ⟨_, _, ⟨sc, _, ha, hk, fun o ho => (hf _ rfl).lead (hj o ho)⟩, fun _ => by simp⟩
    | ifOnly _ _ ha hj =>
      exact ⟨_, _, ⟨sc, _, ha, hk, fun o ho => (hf _ rfl).lead (hj o ho)⟩, fun _ => by simp⟩
  | no =>
    cases hl with
    | ifElse _ _ _ hb _ hj =>
      exact ⟨_, _, ⟨sc, _, hb, hk, fun o ho => (hf _ rfl).lead (hj o ho)⟩, fun _ => by simp⟩
  | loop hb =>
    have loop : ∀ m, LaidLoop C exits labels sc l m cs → Falls C exits labels k ⟨m.after, 0⟩ →
        ∃ p' cs', Placed C exits labels l' (.loop l k) p' cs' ∧
        (l.stmt.isSwitch = false → cs' ⊆ cs) := by
      intro m h hm
      obtain ⟨b, hb', hpl⟩ := h.placed hk hm
      cases hb.symm.trans hb'
      exact ⟨_, _, hpl, fun _ => List.Subset.refl _⟩
    cases hl with
    | whileDo h _ => exact loop _ h (hf _ rfl)
    | doWhile h _ => exact loop _ h (hf _ rfl)
    | forDo _ h _ => exact loop _ h (hf _ rfl)
    | _ => simp [Located.loopBody?] at hb
  | switch =>
    cases hl with
    | switch _ _ hb hj =>
      refine ⟨_, _,
        ⟨_, _, hb, ⟨sc, _, rfl, rfl, hk, hf _ rfl⟩, fun o ho => ?_⟩, by simp [Stmt.isSwitch]⟩
      exact (hf _ rfl).lead (hj o ho)
  | case =>
    cases hl with
    | case _ h => exact ⟨_, _, ⟨sc, _, h, hk, hf⟩, fun _ => by simp⟩
  | label =>
    cases hl with
    | label _ _ h => exact ⟨_, _, ⟨sc, _, h, hk, hf⟩, fun _ => List.Subset.refl _⟩

theorem Placed.within {deep : Bool} {l l' : Located} {k k' : Cont} (hw : Within deep l k l' k')
    (h : Placed C exits labels l k p cs) :
    ∃ p' cs', Placed C exits labels l' k' p' cs' ∧ (deep = false → cs' ⊆ cs) := by
  induction hw generalizing p cs with
  | here l k => exact ⟨p, cs, h, fun _ => List.Subset.refl _⟩
  | part hd hp _ ih =>
    obtain ⟨p₁, cs₁, h₁, hs₁⟩ := h.part hp
    obtain ⟨p₂, cs₂, h₂, hs₂⟩ := ih h₁
    refine ⟨p₂, cs₂, h₂, fun hdeep => List.Subset.trans (hs₂ hdeep) (hs₁ ?_)⟩
    exact hd.resolve_left (by simp [hdeep])

theorem Placed.sits (h : Placed C exits labels l k p cs) : Sits C exits labels (.run l k) p :=
  ⟨p, cs, .refl p, h⟩

/-- Every label has its block, where the labelled statement lies. -/
theorem Placed.labelled {body : Stmt} {name : String} {target : Located}
    (h : Placed C exits labels ⟨[], [], body⟩ .stop p cs) (hl : Labelled body name target k) :
    ∃ t, (name, t) ∈ labels ∧ Sits C exits labels (.run target k) ⟨t, 0⟩ := by
  obtain ⟨⟨up, addr, _⟩, s, pos, hw, rfl, rfl⟩ := hl
  obtain ⟨p', cs', ⟨sc, out, hlaid, hk, hf⟩, -⟩ := h.within hw
  cases hlaid with
  | label hm _ h => exact ⟨_, hm, Placed.sits ⟨sc, out, h, hk, hf⟩⟩

/-- Every case of a switch has its block, where the statement behind the case lies. -/
theorem Placed.caseOf {b target : Located} {k k' : Cont} {v : Option Expr}
    (h : Placed C exits labels b (.switch k) p cs) (hc : CaseOf b k v target k') :
    ∃ t ∈ cs, Sits C exits labels (.run target k') ⟨t, 0⟩ := by
  obtain ⟨⟨up, addr, _⟩, s, pos, hw, rfl, rfl⟩ := hc
  obtain ⟨p', cs', ⟨sc, out, hlaid, hk, hf⟩, hsub⟩ := h.within hw
  cases hlaid with
  | case _ h => exact ⟨_, hsub rfl (List.mem_cons_self ..), Placed.sits ⟨sc, out, h, hk, hf⟩⟩

theorem Placed.mem_cases (h : Placed C exits labels l k p cs) (ht : t ∈ cs) :
    (∃ v s pos, l.stmt = .case v s pos ∧ Sits C exits labels (.run (l.child 0 s) k) ⟨t, 0⟩) ∨
      ∃ l' k' p' cs', Part l k l' k' ∧ l.stmt.isSwitch = false ∧
        Placed C exits labels l' k' p' cs' ∧ t ∈ cs' := by
  obtain ⟨sc, out, hl, hk, hf⟩ := h
  have loop : ∀ m, LaidLoop C exits labels sc l m cs → Falls C exits labels k ⟨m.after, 0⟩ →
      ∃ l' k' p' cs', Part l k l' k' ∧ Placed C exits labels l' k' p' cs' ∧ t ∈ cs' := by
    intro m h hm
    obtain ⟨b, hb, hpl⟩ := h.placed hk hm
    exact ⟨b, .loop l k, _, _, .loop hb, hpl, ht⟩
  cases hl with
  | block h =>
    obtain ⟨pre, s, post, p', cs', rfl, hpl, ht'⟩ := h.mem_part hk hf ht
    rw [Nat.zero_add] at hpl
    exact .inr ⟨_, _, p', cs', .block, rfl, hpl, ht'⟩
  | ifElse _ _ ha hb hj hj' =>
    rcases List.mem_append.mp ht with ht | ht
    · exact .inr ⟨_, _, _, _, .yes, rfl, ⟨sc, _, ha, hk, fun o ho => (hf _ rfl).lead (hj o ho)⟩, ht⟩
    · exact .inr ⟨_, _, _, _, .no, rfl, ⟨sc, _, hb, hk, fun o ho => (hf _ rfl).lead (hj' o ho)⟩, ht⟩
  | ifOnly _ _ ha hj =>
    exact .inr ⟨_, _, _, _, .yes, rfl, ⟨sc, _, ha, hk, fun o ho => (hf _ rfl).lead (hj o ho)⟩, ht⟩
  | whileDo h _ =>
    obtain ⟨l', k', p', cs', hp, hpl⟩ := loop _ h (hf _ rfl)
    exact .inr ⟨l', k', p', cs', hp, rfl, hpl⟩
  | doWhile h _ =>
    obtain ⟨l', k', p', cs', hp, hpl⟩ := loop _ h (hf _ rfl)
    exact .inr ⟨l', k', p', cs', hp, rfl, hpl⟩
  | forDo _ h _ =>
    obtain ⟨l', k', p', cs', hp, hpl⟩ := loop _ h (hf _ rfl)
    exact .inr ⟨l', k', p', cs', hp, rfl, hpl⟩
  | case _ h =>
    rcases List.mem_cons.mp ht with rfl | ht
    · exact .inl ⟨_, _, _, rfl, Placed.sits ⟨sc, out, h, hk, hf⟩⟩
    · exact .inr ⟨_, _, _, _, .case, rfl, ⟨sc, out, h, hk, hf⟩, ht⟩
  | label _ _ h => exact .inr ⟨_, _, _, _, .label, rfl, ⟨sc, out, h, hk, hf⟩, ht⟩
  | _ => simp at ht

theorem Placed.case_of_mem (h : Placed C exits labels l k p cs) (ht : t ∈ cs) :
    ∃ l' k' v s pos, Within false l k l' k' ∧ l'.stmt = .case v s pos ∧
      Sits C exits labels (.run (l'.child 0 s) k') ⟨t, 0⟩ := by
  induction hn : sizeOf l.stmt using Nat.strongRecOn generalizing l k p cs with
  | _ n ih =>
    rcases h.mem_cases ht with ⟨v, s, pos, hl, hs⟩ | ⟨l', k', p', cs', hp, hsw, h', ht'⟩
    · exact ⟨l, k, v, s, pos, .here l k, hl, hs⟩
    · obtain ⟨l'', k'', v, s, pos, hw, hl, hs⟩ := ih _ (hn ▸ hp.size) h' ht' rfl
      exact ⟨l'', k'', v, s, pos, .part (.inr hsw) hp hw, hl, hs⟩

end JniContracts.Flow
