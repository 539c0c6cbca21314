import JniContracts.Proofs.Draft
import JniContracts.Rule.Scene

/-!
Where a path ends, as the rules see it and as the control-flow graph has it. Both take returns,
jumps to labels and calls of exit functions for ends. They part at calls of members: `app.exit(1)`
counts as an end for the rules, and in the graph control falls to the code behind it.
-/

namespace JniContracts

namespace Stmt

def isLeaf : Stmt → Bool
  | simple (.expr ..) | ret .. | goto .. => true
  | _ => false

def endsPath (exits : List String) : Stmt → Bool
  | simple x => x.leaves exits
  | ret .. | goto .. => true
  | _ => false

/-- Whether a statement calls a member that is named like an exit function, of an object or through
a pointer that has a name. -/
def callsMemberExit (exits : List String) : Stmt → Bool
  | simple (.expr e _) =>
    match e.strip.call? with
    | some c => !c.viaInterface && c.receiver?.isSome && c.calls exits
    | none => false
  | _ => false

theorem isLeaf_cases {stmt : Stmt} (h : stmt.isLeaf = true) :
    (∃ e p, stmt = simple (.expr e p)) ∨ (∃ v p, stmt = ret v p) ∨ ∃ l p, stmt = goto l p := by
  cases stmt with
  | simple x =>
    cases x with
    | expr e p => exact .inl ⟨e, p, rfl⟩
    | decl t ds p => cases h
  | ret v p => exact .inr (.inl ⟨v, p, rfl⟩)
  | goto l p => exact .inr (.inr ⟨l, p, rfl⟩)
  | _ => cases h

/-- A member that is called has a receiver, and a plain call has none. -/
theorem not_endsPath_of_callsMemberExit {exits : List String} {stmt : Stmt}
    (h : stmt.callsMemberExit exits = true) : stmt.endsPath exits = false := by
  cases stmt with
  | simple x =>
    cases x with
    | expr e p =>
      show Flow.isExitCall exits e = false
      unfold callsMemberExit at h
      unfold Flow.isExitCall
      cases hcall : e.strip.call? with
      | none => simp [hcall] at h
      | some c =>
        cases hr : c.receiver? with
        | none => simp [hcall, hr] at h
        | some r => simp [hr]
    | decl t ds p => cases h
  | _ => cases h

/-- The rules ask for one condition less than the graph: they do not look at the receiver of a
call. -/
theorem isTerminator_iff_endsPath (s : Settings) {stmt : Stmt} (hleaf : stmt.isLeaf = true) :
    s.isTerminator stmt = true ↔
      stmt.endsPath s.exitFunctions = true ∨ stmt.callsMemberExit s.exitFunctions = true := by
  obtain ⟨e, p, rfl⟩ | ⟨v, p, rfl⟩ | ⟨l, p, rfl⟩ := isLeaf_cases hleaf
  · show _ ↔ Flow.isExitCall s.exitFunctions e = true ∨ _
    unfold Settings.isTerminator callsMemberExit Flow.isExitCall
    cases hcall : e.strip.call? with
    | none => simp [hcall]
    | some c => cases hr : c.receiver? <;> simp [hcall, hr]
  · simp [Settings.isTerminator, endsPath]
  · simp [Settings.isTerminator, endsPath]

end Stmt

namespace Flow

open Execution

variable (exits : List String) {stmt : Stmt}

theorem addStmt_leaf (hleaf : stmt.isLeaf = true) (scope : Scope) (up : List Stmt) (addr : Address)
    (cur : Option Nat) (d : Draft) :
    ∃ next d', addStmt exits scope up addr stmt cur d = .ok (next, d') ∧
    (next = none ↔ stmt.endsPath exits = true) := by
  -- code behind a jump starts a block of its own, and then there is a current one
  obtain ⟨id, d₁, hcur⟩ : ∃ id d₁, addStmt exits scope up addr stmt cur d =
      addStmt exits scope up addr stmt (some id) d₁ := by
    cases cur with
    | none => exact ⟨_, _, addStmt_none stmt⟩
    | some id => exact ⟨id, d, rfl⟩
  rw [hcur]
  obtain ⟨e, p, rfl⟩ | ⟨v, p, rfl⟩ | ⟨l, p, rfl⟩ := Stmt.isLeaf_cases hleaf
  · simp only [addStmt, current, pure_bind, append_bind]
    cases he : isExitCall exits e with
    | false => exact ⟨_, _, rfl, by simp [Stmt.endsPath, Simple.leaves, he]⟩
    | true => exact ⟨_, _, rfl, by simp [Stmt.endsPath, Simple.leaves, he]⟩
  · simp only [addStmt, current, pure_bind, append_bind, link_bind]
    exact ⟨_, _, rfl, by simp [Stmt.endsPath]⟩
  · simp only [addStmt, current, pure_bind, append_bind]
    exact ⟨_, _, rfl, by simp [Stmt.endsPath]⟩

theorem step_behind_leaf_iff (hleaf : stmt.isLeaf = true) (body : Stmt) (up : List Stmt)
    (addr : Address) (k : Cont) :
    (∃ es, Step exits body (.run ⟨up, addr, stmt⟩ k) es (.fall k)) ↔
    stmt.endsPath exits = false := by
  obtain ⟨e, p, rfl⟩ | ⟨v, p, rfl⟩ | ⟨l, p, rfl⟩ := Stmt.isLeaf_cases hleaf
  · constructor
    · rintro ⟨es, h⟩
      cases h with
      | simple h => exact h
    · intro h
      exact ⟨_, .simple h⟩
  · constructor
    · rintro ⟨es, h⟩
      cases h
    · intro h
      cases h
  · constructor
    · rintro ⟨es, h⟩
      cases h
    · intro h
      cases h

/-- For every expression statement, return and jump to a label, wherever it stands in a function:
the graph is built past it, control comes out of it just if an execution can go on behind it, and
the rules take it for the end of a path just if control does not come out, or if it calls a member
that is named like an exit function. From such a call control does come out. -/
theorem terminator_iff_no_way_on (s : Settings) (stmt : Stmt) (hleaf : stmt.isLeaf = true)
    (scope : Scope) (up : List Stmt) (addr : Address) (cur : Option Nat) (d : Draft) :
    ∃ next d', addStmt s.exitFunctions scope up addr stmt cur d = .ok (next, d') ∧
      (next = none ↔
        ∀ body k es, ¬ Step s.exitFunctions body (.run ⟨up, addr, stmt⟩ k) es (.fall k)) ∧
      (s.isTerminator stmt = true ↔
        next = none ∨ stmt.callsMemberExit s.exitFunctions = true) ∧
      (stmt.callsMemberExit s.exitFunctions = true → next ≠ none) := by
  obtain ⟨next, d', hadd, hnext⟩ := addStmt_leaf s.exitFunctions hleaf scope up addr cur d
  refine ⟨next, d', hadd, ?_, ?_, fun hmember hnone => ?_⟩
  · have hfall := fun body k => step_behind_leaf_iff s.exitFunctions hleaf body up addr k
    rw [hnext]
    constructor
    · intro hends body k es hstep
      rw [(hfall body k).mp ⟨es, hstep⟩] at hends
      cases hends
    · intro hnever
      by_contra hends
      obtain ⟨es, hstep⟩ := (hfall stmt .stop).mpr (Bool.eq_false_iff.mpr hends)
      exact hnever stmt .stop es hstep
  · rw [hnext]
    exact stmt.isTerminator_iff_endsPath s hleaf
  · rw [hnext, Stmt.not_endsPath_of_callsMemberExit hmember] at hnone
    cases hnone

def plainExit : Stmt :=
  .simple (.expr (.call (.name "exit" ⟨2, 1⟩) [.literal "1" .number ⟨2, 6⟩] false ⟨2, 1⟩) ⟨2, 1⟩)

theorem terminator_iff_no_way_on_plainExit : plainExit.isLeaf = true ∧
    ∃ next d', addStmt Settings.standard.exitFunctions ⟨none, none, none⟩ [] [0] plainExit (some 0)
        ⟨#[⟨0, .body, []⟩], #[], [], []⟩ = .ok (next, d') ∧
      (Settings.standard.isTerminator plainExit = true ↔
        next = none ∨ plainExit.callsMemberExit Settings.standard.exitFunctions = true) := by
  obtain ⟨next, d', hadd, -, hiff, -⟩ := terminator_iff_no_way_on .standard plainExit
    rfl ⟨none, none, none⟩ [] [0] (some 0) ⟨#[⟨0, .body, []⟩], #[], [], []⟩
  exact ⟨rfl, next, d', hadd, hiff⟩

def memberExit : Stmt :=
  .simple (.expr (.call (.member (.name "app" ⟨2, 1⟩) "exit" false ⟨2, 1⟩)
    [.literal "1" .number ⟨2, 10⟩] false ⟨2, 1⟩) ⟨2, 1⟩)

def quitting : Function where
  name := "quitting"
  params := []
  locals := []
  pos := ⟨1, 1⟩
  body :=
    .block [memberExit, .simple (.expr (.call (.name "next" ⟨3, 1⟩) [] false ⟨3, 1⟩) ⟨3, 1⟩)] ⟨1, 9⟩

/-- The rules take the call of a member for an end, and in the graph the next statement runs behind
it. -/
theorem memberExit_ends_nothing : Settings.standard.isTerminator memberExit = true ∧
    (∃ d', addStmt Settings.standard.exitFunctions ⟨none, none, none⟩ [] [0] memberExit (some 0)
      ⟨#[⟨0, .body, []⟩], #[], [], []⟩ = .ok (some 0, d')) ∧
    ((build Settings.standard.exitFunctions quitting).toOption.any fun g =>
      g.blocks.any fun b => b.elements.map Element.address == [[0], [1]]) = true :=
  ⟨by decide, ⟨_, rfl⟩, by decide +kernel⟩

end Flow

end JniContracts
