import JniContracts.Proofs.Spelling.Statements
import JniContracts.Rule.Evaluate

/-!
Splitting declarations. A declaration of several names in a block is replaced by a run of
declarations of one name each, in order. The statement declares the same names before and after,
clears exceptions in the same places, and can end in the same jumps.
-/

namespace JniContracts

def below (chosen : Address → Bool) (n : Nat) : Address → Bool := fun addr => chosen (n :: addr)

namespace Stmt

/-- The declarations of one name each that a declaration stands for. Any other statement stands for
itself. -/
def apart : Stmt → List Stmt
  | simple (.decl t (d :: ds) p) => (d :: ds).map fun d => simple (.decl t [d] p)
  | s => [s]

mutual
def split (chosen : Address → Bool) : Stmt → Stmt
  | block ss p => block (splitAll chosen 0 ss) p
  | ifElse c a b p => ifElse c (split (below chosen 0) a) (splitElse (below chosen 1) b) p
  | whileDo c b p => whileDo c (split (below chosen 0) b) p
  | doWhile b c p => doWhile (split (below chosen 0) b) c p
  | forDo i c t b p => forDo i c t (split (below chosen 1) b) p
  | switch c b p => switch c (split (below chosen 0) b) p
  | case v b p => case v (split (below chosen 0) b) p
  | label n b p => label n (split (below chosen 0) b) p
  | simple x => simple x
  | goto l p => goto l p
  | ret v p => ret v p
  | brk p => brk p
  | cont p => cont p
  | empty p => empty p

def splitAll (chosen : Address → Bool) : Nat → List Stmt → List Stmt
  | _, [] => []
  | n, s :: ss =>
    (if chosen [n] then (split (below chosen n) s).apart else [split (below chosen n) s]) ++
      splitAll chosen (n + 1) ss

def splitElse (chosen : Address → Bool) : Option Stmt → Option Stmt
  | none => none
  | some s => some (split chosen s)
end

def Resembles (s s' : Stmt) : Prop := ∃ chosen, s' = s.split chosen

/-- A statement is split into several only if it is a declaration. -/
theorem apart_cases (s : Stmt) :
    s.apart = [s] ∨ ∃ t d ds p, s = simple (.decl t (d :: ds) p) ∧
    s.apart = (d :: ds).map fun d => simple (.decl t [d] p) := by
  cases s with
  | simple x =>
    cases x with
    | expr e p => exact .inl rfl
    | decl t ds p =>
      cases ds with
      | nil => exact .inl rfl
      | cons d ds => exact .inr ⟨t, d, ds, p, rfl, rfl⟩
  | _ => exact .inl rfl

section Kept

variable (chosen : Address → Bool) (s : Stmt)

@[simp] theorem isLoop_split : (s.split chosen).isLoop = s.isLoop := by cases s <;> rfl

@[simp] theorem pos_split : (s.split chosen).pos = s.pos := by cases s <;> rfl

theorem isTerminator_split (settings : Settings) :
    settings.isTerminator (s.split chosen) = settings.isTerminator s := by
  cases s <;> rfl

end Kept

theorem walkAll_append (ss ss' : List Stmt) : walkAll (ss ++ ss') = walkAll ss ++ walkAll ss' := by
  induction ss with
  | nil => rfl
  | cons s ss ih => rw [List.cons_append, walkAll, walkAll, ih, List.append_assoc]

/-- What can be gathered from the statements of a walk without looking into their parts, and name by
name from a declaration. -/
structure Gathered {β : Type} (u : Stmt → List β) : Prop where
  kept : ∀ chosen s, u (s.split chosen) = u s
  names : ∀ t d ds p, u (simple (.decl t (d :: ds) p)) =
      (d :: ds).flatMap fun d => u (simple (.decl t [d] p))

section Walks

variable {β : Type} {u : Stmt → List β}

theorem Gathered.apart (hu : Gathered u) (s : Stmt) :
    (walkAll s.apart).flatMap u = s.walk.flatMap u := by
  rcases s.apart_cases with hs | ⟨t, d, ds, p, rfl, hs⟩
  · rw [hs, walkAll, walkAll, List.append_nil]
  · have hwalk : ∀ ds : List Declarator, walkAll (ds.map fun d => simple (.decl t [d] p)) =
        ds.map fun d => simple (.decl t [d] p) := by
      intro ds
      induction ds with
      | nil => rfl
      | cons d ds ih => rw [List.map_cons, walkAll, ih]; rfl
    rw [hs, hwalk, List.flatMap_map, walk, List.flatMap_singleton, hu.names]

theorem Gathered.cons (hu : Gathered u) (chosen : Address → Bool) (s : Stmt) {l l' : List Stmt}
    (h : l'.flatMap u = l.flatMap u) : (s.split chosen :: l').flatMap u = (s :: l).flatMap u := by
  rw [List.flatMap_cons, List.flatMap_cons, hu.kept, h]

mutual
theorem Gathered.walk (hu : Gathered u) : (s : Stmt) → (chosen : Address → Bool) →
    (s.split chosen).walk.flatMap u = s.walk.flatMap u
  | block ss p, chosen => hu.cons chosen (block ss p) (hu.walkParts ss chosen 0)
  | ifElse c a b p, chosen => by
    refine hu.cons chosen (ifElse c a b p) ?_
    rw [List.flatMap_append, List.flatMap_append, hu.walk a, hu.walkElse b]
  | whileDo c b p, chosen => hu.cons chosen (whileDo c b p) (hu.walk b _)
  | doWhile b c p, chosen => hu.cons chosen (doWhile b c p) (hu.walk b _)
  | forDo i c t b p, chosen => by
    refine hu.cons chosen (forDo i c t b p) ?_
    rw [List.flatMap_append, List.flatMap_append, hu.walk b]
  | switch c b p, chosen => hu.cons chosen (switch c b p) (hu.walk b _)
  | case v b p, chosen => hu.cons chosen (case v b p) (hu.walk b _)
  | label n b p, chosen => hu.cons chosen (label n b p) (hu.walk b _)
  | simple _, _ => rfl
  | goto _ _, _ => rfl
  | ret _ _, _ => rfl
  | brk _, _ => rfl
  | cont _, _ => rfl
  | empty _, _ => rfl

theorem Gathered.walkParts (hu : Gathered u) :
    (ss : List Stmt) → (chosen : Address → Bool) → (n : Nat) →
    (walkAll (splitAll chosen n ss)).flatMap u = (walkAll ss).flatMap u
  | [], _, _ => rfl
  | s :: ss, chosen, n => by
    rw [splitAll, walkAll_append, List.flatMap_append, hu.walkParts ss chosen (n + 1), walkAll,
      List.flatMap_append, ← hu.walk s (below chosen n)]
    split
    · rw [hu.apart]
    · rw [walkAll, walkAll, List.append_nil]

theorem Gathered.walkElse (hu : Gathered u) : (o : Option Stmt) → (chosen : Address → Bool) →
    (Stmt.walkElse (splitElse chosen o)).flatMap u = (Stmt.walkElse o).flatMap u
  | none, _ => rfl
  | some s, chosen => hu.walk s chosen
end

end Walks

theorem gathered_declared : Gathered declared where
  kept _ s := by cases s <;> rfl
  names _ _ _ _ := List.map_eq_flatMap

theorem gathered_exprs : Gathered Stmt.exprs where
  kept _ s := by cases s <;> rfl
  names t d ds p := by
    show (d :: ds).flatMap Declarator.assignments =
        (d :: ds).flatMap fun d => [d].flatMap Declarator.assignments
    simp only [List.flatMap_singleton]

theorem gathered_terminators (settings : Settings) :
    Gathered fun s => if settings.isTerminator s then [s.pos] else [] where
  kept _ s := by simp only [isTerminator_split, pos_split]
  names t d ds p := by
    show [] = (d :: ds).flatMap fun _ => []
    simp

section Asked

variable (chosen : Address → Bool) (s : Stmt)

theorem terminates_split (settings : Settings) :
    settings.terminates (s.split chosen) = settings.terminates s := by
  have hany : ∀ s : Stmt, settings.terminates s =
      !(s.walk.flatMap fun s => if settings.isTerminator s then [s.pos] else []).isEmpty := by
    intro s
    rw [Settings.terminates, Bool.eq_iff_iff, Bool.not_eq_true', List.any_eq_true,
      ← Bool.not_eq_true, List.isEmpty_iff, List.flatMap_eq_nil_iff]
    simp
  rw [hany, hany, (gathered_terminators settings).walk]

theorem clears_split (settings : Settings) :
    settings.clears (s.split chosen) = settings.clears s := by
  have hany : ∀ s : Stmt, settings.clears s =
      (s.walk.flatMap Stmt.exprs).any fun e => e.calls.any (·.calls settings.exceptionClear) :=
      fun s => by
    rw [Settings.clears, List.any_flatMap]
  rw [hany, hany, gathered_exprs.walk]

end Asked

end Stmt

def Function.split (chosen : Address → Bool) (f : Function) : Function :=
  { f with body := f.body.split chosen }

end JniContracts
