import JniContracts.Flow.Build

/-!
Executions of a function body, told from the text of the program alone. Values are not computed: a
condition may go either way, except that of a loop which is a literal. What is left to do behind a
statement is kept as a continuation, and a jump is a change of continuation.
-/

namespace JniContracts

/-- A statement where it stands: the statements around it, and its address. -/
structure Located where
  up : List Stmt
  addr : Address
  stmt : Stmt

namespace Located

def child (l : Located) (n : Nat) (s : Stmt) : Located := ⟨l.up ++ [l.stmt], l.addr ++ [n], s⟩

@[simp] theorem child_stmt (l : Located) (n : Nat) (s : Stmt) : (l.child n s).stmt = s := rfl

def element (l : Located) (role : Role) (exprs : List Expr) : Element :=
  ⟨l.addr, l.stmt, role, exprs, l.up⟩

/-- What a simple statement runs. A declaration without values runs nothing. -/
def evaluated (l : Located) (role : Role) (x : Simple) : List Element :=
  if x.exprs.isEmpty then [] else [l.element role x.exprs]

def condition (l : Located) : List Element :=
  l.stmt.control?.toList.map fun c => l.element .cond [c]

def initial (l : Located) : List Element :=
  match l.stmt with
  | .forDo (some x) _ _ _ _ => (l.child 0 (.simple x)).evaluated .init x
  | _ => []

def advance (l : Located) : List Element :=
  match l.stmt with
  | .forDo _ _ (some t) _ _ => [l.element .step [t]]
  | _ => []

def loopBody? (l : Located) : Option Located :=
  match l.stmt with
  | .whileDo _ b _ | .doWhile b _ _ => some (l.child 0 b)
  | .forDo _ _ _ b _ => some (l.child 1 b)
  | _ => none

end Located

namespace Stmt

def isSwitch : Stmt → Bool
  | switch .. => true
  | _ => false

/-- A case or a label, with the statement behind it. -/
def isLabel : Stmt → Bool
  | case .. | label .. => true
  | _ => false

def mayRepeat : Stmt → Bool
  | doWhile _ c _ => !Flow.isConstant Flow.falseLiterals c
  | _ => true

def mayEnd : Stmt → Bool
  | whileDo c _ _ | doWhile _ c _ => !Flow.isConstant Flow.trueLiterals c
  | forDo _ c _ _ _ => c.any fun c => !Flow.isConstant Flow.trueLiterals c
  | _ => true

end Stmt

namespace Simple

def leaves (exits : List String) : Simple → Bool
  | expr e _ => Flow.isExitCall exits e
  | decl .. => false

end Simple

namespace Element

def isBranch (e : Element) : Bool :=
  e.role == .cond && match e.stmt with
    | .ifElse .. | .whileDo .. | .forDo .. => true
    | _ => false

end Element

theorem Located.evaluated_of_leaves {exits : List String} {x : Simple} (h : x.leaves exits = true)
    (l : Located) (role : Role) : l.evaluated role x = [l.element role x.exprs] := by
  cases x with
  | expr e p => rfl
  | decl t ds p => simp [Simple.leaves] at h

namespace Execution

/-- What is left to do behind a statement, the nearest first. -/
inductive Cont where
  | stop
  /-- The statements of a block from number `n` on. -/
  | rest (block : Located) (n : Nat) (stmts : List Stmt) (k : Cont)
  /-- Behind the body of a loop. -/
  | loop (loop : Located) (k : Cont)
  /-- Behind the body of a switch. -/
  | switch (k : Cont)

namespace Cont

def behind? : Cont → Option Cont
  | stop => none
  | rest _ _ _ k => k.behind?
  | loop _ k => some k
  | switch k => some k

def innermost? : Cont → Option (Located × Cont)
  | stop => none
  | rest _ _ _ k => k.innermost?
  | loop l k => some (l, k)
  | switch k => k.innermost?

end Cont

inductive State where
  /-- In front of a statement. -/
  | run (l : Located) (k : Cont)
  /-- A statement has ended. -/
  | fall (k : Cont)
  /-- In front of the condition of a loop. -/
  | test (loop : Located) (k : Cont)
  /-- Behind the body of a loop, in front of the last clause of a `for`. -/
  | again (loop : Located) (k : Cont)
  /-- Behind the condition of a statement. -/
  | choose (l : Located) (k : Cont)
  /-- The function has been left. -/
  | left

inductive Event where
  | ran (e : Element)
  /-- A branch was taken at a condition. -/
  | chose (e : Element) (yes : Bool)

namespace Event

def element? : Event → Option Element
  | ran e => some e
  | chose .. => none

end Event

def ran (es : List Element) : List Event := es.map .ran

def chose (l : Located) (yes : Bool) : List Event :=
  (l.condition.filter Element.isBranch).map (.chose · yes)

inductive Part : Located → Cont → Located → Cont → Prop where
  | block {up addr pre s post p k} :
      Part ⟨up, addr, .block (pre ++ s :: post) p⟩ k
        (Located.child ⟨up, addr, .block (pre ++ s :: post) p⟩ pre.length s)
        (.rest ⟨up, addr, .block (pre ++ s :: post) p⟩ (pre.length + 1) post k)
  | yes {up addr c a b p k} :
      Part ⟨up, addr, .ifElse c a b p⟩ k (Located.child ⟨up, addr, .ifElse c a b p⟩ 0 a) k
  | no {up addr c a b p k} :
      Part ⟨up, addr,
        .ifElse c a (some b) p⟩ k (Located.child ⟨up, addr, .ifElse c a (some b) p⟩ 1 b) k
  | loop {l b k} (h : l.loopBody? = some b) : Part l k b (.loop l k)
  | switch {up addr c b p k} :
      Part ⟨up, addr, .switch c b p⟩ k (Located.child ⟨up, addr, .switch c b p⟩ 0 b) (.switch k)
  | case {up addr v s p k} :
      Part ⟨up, addr, .case v s p⟩ k (Located.child ⟨up, addr, .case v s p⟩ 0 s) k
  | label {up addr name s p k} :
      Part ⟨up, addr, .label name s p⟩ k (Located.child ⟨up, addr, .label name s p⟩ 0 s) k

/-- A statement somewhere inside another one. Unless `deep`, it is not inside an inner switch. -/
inductive Within (deep : Bool) : Located → Cont → Located → Cont → Prop where
  | here (l : Located) (k : Cont) : Within deep l k l k
  | part {l m n : Located} {k k' k'' : Cont} : (deep = true ∨ l.stmt.isSwitch = false) →
      Part l k m k' → Within deep m k' n k'' → Within deep l k n k''

def Labelled (body : Stmt) (name : String) (target : Located) (k : Cont) : Prop :=
  ∃ l s p, Within true ⟨[], [], body⟩ .stop l k ∧ l.stmt = .label name s p ∧ target = l.child 0 s

/-- The statement behind a case label of a switch, with the value of the label. The case may stand
anywhere in the body of the switch, but not in that of an inner switch. -/
def CaseOf (switchBody : Located) (k : Cont) (value : Option Expr) (target : Located) (k' : Cont) :
    Prop :=
  ∃ l s p, Within false switchBody (.switch k) l k' ∧ l.stmt = .case value s p ∧
    target = l.child 0 s

/-- One step of an execution, with what it lets be seen. -/
inductive Step (exits : List String) (body : Stmt) : State → List Event → State → Prop where
  | block {up addr ss p k} :
      Step exits body (.run ⟨up, addr, .block ss p⟩ k) []
        (.fall (.rest ⟨up, addr, .block ss p⟩ 0 ss k))
  | next {l n s ss k} :
      Step exits body (.fall (.rest l n (s :: ss) k)) [] (.run (l.child n s) (.rest l (n + 1) ss k))
  | blockEnd {l n k} : Step exits body (.fall (.rest l n [] k)) [] (.fall k)
  | loopEnd {l k} : Step exits body (.fall (.loop l k)) [] (.again l k)
  | switchEnd {k} : Step exits body (.fall (.switch k)) [] (.fall k)
  | bodyEnd : Step exits body (.fall .stop) [] .left
  | simple {up addr x k} (h : x.leaves exits = false) :
      Step exits body (.run ⟨up, addr, .simple x⟩ k)
        (ran (Located.evaluated ⟨up, addr, .simple x⟩ .stmt x)) (.fall k)
  | exitCall {up addr x k} (h : x.leaves exits = true) :
      Step exits body (.run ⟨up, addr, .simple x⟩ k)
        (ran (Located.evaluated ⟨up, addr, .simple x⟩ .stmt x)) .left
  | ret {up addr v p k} :
      Step exits body (.run ⟨up, addr, .ret v p⟩ k)
        (ran [Located.element ⟨up, addr, .ret v p⟩ .ret v.toList]) .left
  | goto {up addr name p k target k'} (h : Labelled body name target k') :
      Step exits body (.run ⟨up, addr, .goto name p⟩ k)
        (ran [Located.element ⟨up, addr, .goto name p⟩ .goto []]) (.run target k')
  | brk {up addr p k k'} (h : k.behind? = some k') :
      Step exits body (.run ⟨up, addr, .brk p⟩ k) [] (.fall k')
  | cont {up addr p k l k'} (h : k.innermost? = some (l, k')) :
      Step exits body (.run ⟨up, addr, .cont p⟩ k) [] (.again l k')
  | empty {up addr p k} : Step exits body (.run ⟨up, addr, .empty p⟩ k) [] (.fall k)
  | ifElse {up addr c a b p k} :
      Step exits body (.run ⟨up, addr, .ifElse c a b p⟩ k)
        (ran (Located.condition ⟨up, addr, .ifElse c a b p⟩))
          (.choose ⟨up, addr, .ifElse c a b p⟩ k)
  | yes {up addr c a b p k} :
      Step exits body (.choose ⟨up, addr, .ifElse c a b p⟩ k) (chose ⟨up, addr,
        .ifElse c a b p⟩ true) (.run (Located.child ⟨up, addr, .ifElse c a b p⟩ 0 a) k)
  | no {up addr c a b p k} :
      Step exits body (.choose ⟨up, addr, .ifElse c a (some b) p⟩ k)
        (chose ⟨up, addr, .ifElse c a (some b) p⟩ false)
        (.run (Located.child ⟨up, addr, .ifElse c a (some b) p⟩ 1 b) k)
  | noElse {up addr c a p k} :
      Step exits body (.choose ⟨up, addr, .ifElse c a none p⟩ k)
        (chose ⟨up, addr, .ifElse c a none p⟩ false) (.fall k)
  | whileDo {up addr c b p k} :
      Step exits body (.run ⟨up, addr, .whileDo c b p⟩ k) [] (.test ⟨up, addr, .whileDo c b p⟩ k)
  | doWhile {up addr c b p k} :
      Step exits body (.run ⟨up, addr, .doWhile b c p⟩ k) []
        (.run (Located.child ⟨up, addr, .doWhile b c p⟩ 0 b) (.loop ⟨up, addr, .doWhile b c p⟩ k))
  | forDo {up addr i c t b p k} :
      Step exits body (.run ⟨up, addr, .forDo i c t b p⟩ k)
        (ran (Located.initial ⟨up, addr, .forDo i c t b p⟩)) (.test ⟨up, addr, .forDo i c t b p⟩ k)
  | test {l k} : Step exits body (.test l k) (ran l.condition) (.choose l k)
  | enter {l b k} (hb : l.loopBody? = some b) (h : l.stmt.mayRepeat = true) :
      Step exits body (.choose l k) (chose l true) (.run b (.loop l k))
  | leave {l b k} (hb : l.loopBody? = some b) (h : l.stmt.mayEnd = true) :
      Step exits body (.choose l k) (chose l false) (.fall k)
  | again {l k} : Step exits body (.again l k) (ran l.advance) (.test l k)
  | switch {up addr c b p k} :
      Step exits body (.run ⟨up, addr, .switch c b p⟩ k)
        (ran (Located.condition ⟨up, addr, .switch c b p⟩)) (.choose ⟨up, addr, .switch c b p⟩ k)
  | enterCase {up addr c b p k v target k'}
      (h : CaseOf (Located.child ⟨up, addr, .switch c b p⟩ 0 b) k v target k') :
      Step exits body (.choose ⟨up, addr, .switch c b p⟩ k) [] (.run target k')
  | skip {up addr c b p k}
      (h : ∀ target k', ¬ CaseOf (Located.child ⟨up, addr, .switch c b p⟩ 0 b) k none target k') :
      Step exits body (.choose ⟨up, addr, .switch c b p⟩ k) [] (.fall k)
  | case {up addr v s p k} :
      Step exits body (.run ⟨up, addr, .case v s p⟩ k) []
        (.run (Located.child ⟨up, addr, .case v s p⟩ 0 s) k)
  | label {up addr name s p k} :
      Step exits body (.run ⟨up, addr, .label name s p⟩ k) []
        (.run (Located.child ⟨up, addr, .label name s p⟩ 0 s) k)

inductive Steps (exits : List String) (body : Stmt) : State → List Event → State → Prop where
  | refl (s : State) : Steps exits body s [] s
  | step {s t u : State} {es fs : List Event} :
      Step exits body s es t → Steps exits body t fs u → Steps exits body s (es ++ fs) u

def start (body : Stmt) : State := .run ⟨[], [], body⟩ .stop

theorem Step.steps {exits : List String} {body : Stmt} {s t : State} {es : List Event}
    (h : Step exits body s es t) : Steps exits body s es t := by
  simpa using Steps.step h (.refl t)

theorem Steps.append {exits : List String} {body : Stmt} {s t u : State} {es fs : List Event}
    (h : Steps exits body s es t) (h' : Steps exits body t fs u) :
    Steps exits body s (es ++ fs) u := by
  induction h with
  | refl s => exact h'
  | step hs _ ih => simpa using Steps.step hs (ih h')

/-- Going from a statement to its parts comes to an end. -/
theorem Part.size {l l' : Located} {k k' : Cont} (h : Part l k l' k') :
    sizeOf l'.stmt < sizeOf l.stmt := by
  cases h with
  | @block up addr pre s post p k =>
    have hs : sizeOf s < sizeOf (pre ++ s :: post) := List.sizeOf_lt_of_mem (by simp)
    simp only [Located.child_stmt, Stmt.block.sizeOf_spec]
    omega
  | loop hb =>
    obtain ⟨up, addr, stmt⟩ := l
    cases stmt <;> simp [Located.loopBody?] at hb <;> subst hb <;> simp <;> omega
  | _ =>
    simp
    omega

theorem hasDefaultAmong_append (pre : List Stmt) (s : Stmt) (post : List Stmt) :
    Flow.hasDefaultAmong (pre ++ s :: post) =
      (Flow.hasDefaultAmong pre || (Flow.hasDefault s || Flow.hasDefaultAmong post)) := by
  induction pre with
  | nil => simp [Flow.hasDefaultAmong]
  | cons s' pre ih => simp [Flow.hasDefaultAmong, ih, Bool.or_assoc]

theorem split_of_hasDefaultAmong {ss : List Stmt} (h : Flow.hasDefaultAmong ss = true) :
    ∃ pre s post, ss = pre ++ s :: post ∧ Flow.hasDefault s = true := by
  induction ss with
  | nil => simp [Flow.hasDefaultAmong] at h
  | cons s ss ih =>
    rw [Flow.hasDefaultAmong, Bool.or_eq_true] at h
    rcases h with h | h
    · exact ⟨[], s, ss, rfl, h⟩
    · obtain ⟨pre, s', post, rfl, h'⟩ := ih h
      exact ⟨s :: pre, s', post, rfl, h'⟩

theorem Part.hasDefault {l l' : Located} {k k' : Cont} (hp : Part l k l' k')
    (hs : l.stmt.isSwitch = false) (h : Flow.hasDefault l'.stmt = true) :
    Flow.hasDefault l.stmt = true := by
  cases hp with
  | block =>
    rw [Located.child_stmt] at h
    simp [Flow.hasDefault, hasDefaultAmong_append, h]
  | loop hb =>
    obtain ⟨up, addr, stmt⟩ := l
    cases stmt <;> simp [Located.loopBody?] at hb <;> subst hb <;>
      simpa [Flow.hasDefault] using h
  | switch => simp [Stmt.isSwitch] at hs
  | @case _ _ v => cases v <;> simp_all [Flow.hasDefault]
  | _ => simp_all [Flow.hasDefault, Flow.hasDefaultElse]

theorem part_of_hasDefault {l : Located} (k : Cont) (h : Flow.hasDefault l.stmt = true) :
    (∃ s p, l.stmt = .case none s p) ∨
      ∃ l' k', Part l k l' k' ∧ l.stmt.isSwitch = false ∧ Flow.hasDefault l'.stmt = true := by
  obtain ⟨up, addr, stmt⟩ := l
  cases stmt with
  | block ss p =>
    obtain ⟨pre, s, post, rfl, hd⟩ := split_of_hasDefaultAmong (by simpa [Flow.hasDefault] using h)
    exact .inr ⟨_, _, .block, rfl, hd⟩
  | ifElse c a b p =>
    rw [Flow.hasDefault, Bool.or_eq_true] at h
    rcases h with h | h
    · exact .inr ⟨_, _, .yes, rfl, h⟩
    · cases b with
      | none => simp [Flow.hasDefaultElse] at h
      | some b => exact .inr ⟨_, _, .no, rfl, by simpa [Flow.hasDefaultElse] using h⟩
  | whileDo c b p => exact .inr ⟨_, _, .loop rfl, rfl, by simpa [Flow.hasDefault] using h⟩
  | doWhile b c p => exact .inr ⟨_, _, .loop rfl, rfl, by simpa [Flow.hasDefault] using h⟩
  | forDo i c t b p => exact .inr ⟨_, _, .loop rfl, rfl, by simpa [Flow.hasDefault] using h⟩
  | case v s p =>
    cases v with
    | none => exact .inl ⟨s, p, rfl⟩
    | some v => exact .inr ⟨_, _, .case, rfl, by simpa [Flow.hasDefault] using h⟩
  | label name s p => exact .inr ⟨_, _, .label, rfl, by simpa [Flow.hasDefault] using h⟩
  | _ => simp [Flow.hasDefault] at h

/-- A statement has a default label of its own exactly if a default case can be entered in it. -/
theorem hasDefault_iff (l : Located) (k : Cont) :
    Flow.hasDefault l.stmt = true ↔
    ∃ l' k' s p, Within false l k l' k' ∧ l'.stmt = .case none s p := by
  constructor
  · intro h
    induction hn : sizeOf l.stmt using Nat.strongRecOn generalizing l k with
    | _ n ih =>
      rcases part_of_hasDefault k h with ⟨s, p, hl⟩ | ⟨l', k', hp, hs, h'⟩
      · exact ⟨l, k, s, p, .here l k, hl⟩
      · obtain ⟨l'', k'', s, p, hw, hl⟩ := ih _ (hn ▸ hp.size) l' k' h' rfl
        exact ⟨l'', k'', s, p, .part (.inr hs) hp hw, hl⟩
  · rintro ⟨l', k', s, p, hw, hl⟩
    induction hw with
    | here l k => rw [hl, Flow.hasDefault]
    | part hd hp _ ih => exact hp.hasDefault (hd.resolve_left (by simp)) (ih hl)

theorem hasDefault_iff_caseOf (b : Located) (k : Cont) :
    Flow.hasDefault b.stmt = true ↔ ∃ target k', CaseOf b k none target k' := by
  rw [hasDefault_iff b (.switch k)]
  constructor
  · rintro ⟨l, k', s, p, hw, hl⟩
    exact ⟨l.child 0 s, k', l, s, p, hw, hl, rfl⟩
  · rintro ⟨target, k', l, s, p, hw, hl, -⟩
    exact ⟨l, k', s, p, hw, hl⟩

end Execution

end JniContracts
