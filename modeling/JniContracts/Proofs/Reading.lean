import JniContracts.Parse.Stmt

/-!
What readers come to. A reader that is run from a state ends with a value in another state, or it
stops. What holds of a reader made of smaller ones is told by what holds of those.
-/

namespace JniContracts.Parse

/-- From state `s` a reader ends as `Q` says, or stops for a reason that `E` admits. -/
def Reads (c : Context) (E : Stop → Prop) {α : Type} (m : ParseM α) (s : State)
    (Q : α → State → Prop) : Prop :=
  match (m.run c).run s with
  | .ok (a, s') => Q a s'
  | .error e => E e

def State.next (s : State) : State := { s with pos := s.pos + 1 }

@[simp] theorem State.pos_next (s : State) : s.next.pos = s.pos + 1 := rfl

section Reads

variable {c : Context} {E : Stop → Prop} {α β : Type} {s : State}

theorem Reads.imp {m : ParseM α} {Q Q' : α → State → Prop} (h : Reads c E m s Q)
    (hQ : ∀ a s', Q a s' → Q' a s') : Reads c E m s Q' := by
  unfold Reads at h ⊢
  split at h
  · exact hQ _ _ h
  · exact h

theorem Reads.of_ok {m : ParseM α} {Q : α → State → Prop} (h : Reads c E m s Q) {a : α} {s' : State}
    (hm : (m.run c).run s = .ok (a, s')) : Q a s' := by
  unfold Reads at h
  rw [hm] at h
  exact h

theorem Reads.of_error {m : ParseM α} {Q : α → State → Prop} (h : Reads c E m s Q) {e : Stop}
    (hm : (m.run c).run s = .error e) : E e := by
  unfold Reads at h
  rw [hm] at h
  exact h

variable {Q : α → State → Prop}

@[simp] theorem reads_pure {a : α} : Reads c E (pure a) s Q ↔ Q a s := Iff.rfl

@[simp] theorem reads_bind {m : ParseM β} {f : β → ParseM α} :
    Reads c E (m >>= f) s Q ↔ Reads c E m s fun b s' => Reads c E (f b) s' Q := by
  unfold Reads
  simp only [ReaderT.run_bind, StateT.run_bind]
  cases (m.run c).run s with
  | ok r => exact Iff.rfl
  | error e => exact Iff.rfl

@[simp] theorem reads_throw {e : Stop} : Reads c E (throw e : ParseM α) s Q ↔ E e := Iff.rfl

@[simp] theorem reads_lift {x : Except Stop α} :
    Reads c E (liftM x : ParseM α) s Q ↔ match x with | .ok a => Q a s | .error e => E e := by
  cases x <;> exact Iff.rfl

@[simp] theorem reads_ite {b : Prop} [Decidable b] {x y : ParseM α} :
    Reads c E (if b then x else y) s Q ↔ if b then Reads c E x s Q else Reads c E y s Q := by
  split <;> exact Iff.rfl

@[simp] theorem reads_failAt {t : Token} {p : Problem} :
    Reads c E (failAt t p : ParseM α) s Q ↔ E (.fault ⟨p, t.line⟩) :=
  Iff.rfl

@[simp] theorem reads_fail {p : Problem} :
    Reads c E (fail p : ParseM α) s Q ↔ E (.fault ⟨p, (c.tokenAt s.pos).line⟩) := Iff.rfl

end Reads

section Tokens

variable {c : Context} {E : Stop → Prop} {s : State} {Q : Unit → State → Prop}

@[simp] theorem reads_read {Q : Context → State → Prop} : Reads c E read s Q ↔ Q c s := Iff.rfl

@[simp] theorem reads_get {Q : State → State → Prop} : Reads c E get s Q ↔ Q s s := Iff.rfl

@[simp] theorem reads_moveTo {i : Nat} : Reads c E (moveTo i) s Q ↔ Q () { s with pos := i } :=
  Iff.rfl

@[simp] theorem reads_peekAt {k : Nat} {Q : Token → State → Prop} :
    Reads c E (peekAt k) s Q ↔ Q (c.tokenAt (s.pos + k)) s := Iff.rfl

@[simp] theorem reads_peek {Q : Token → State → Prop} :
    Reads c E peek s Q ↔ Q (c.tokenAt s.pos) s := Iff.rfl

theorem reads_advance {Q : Token → State → Prop} (h : (c.tokenAt s.pos).isEof = false) :
    Reads c E advance s Q ↔ Q (c.tokenAt s.pos) s.next := by
  simp only [advance, reads_bind, reads_peek, h, Bool.not_false, if_true]
  exact Iff.rfl

theorem not_isEof_of_isPunct {t : Token} {text : String} (h : t.isPunct text = true) :
    t.isEof = false := by
  simp only [Token.isPunct, Bool.and_eq_true, beq_iff_eq] at h
  simp [Token.isEof, h.1]

theorem not_isEof_of_isIdent {t : Token} (h : t.isIdent = true) : t.isEof = false := by
  simp only [Token.isIdent, beq_iff_eq] at h
  simp [Token.isEof, h]

@[simp] theorem reads_accept {text : String} {Q : Bool → State → Prop} :
    Reads c E (accept text) s Q ↔
    if (c.tokenAt s.pos).isPunct text then Q true s.next else Q false s := by
  simp only [accept, reads_bind, reads_peek, reads_ite, reads_pure]
  split
  · rename_i h
    rw [reads_advance (not_isEof_of_isPunct h)]
  · exact Iff.rfl

@[simp] theorem reads_expect {text : String} :
    Reads c E (expect text) s Q ↔ if (c.tokenAt s.pos).isPunct text then Q () s.next
      else E (.fault ⟨.expected text (c.tokenAt s.pos).shown, (c.tokenAt s.pos).line⟩) := by
  simp only [expect, reads_bind, reads_peek, reads_ite, reads_failAt]
  split
  · rename_i h
    rw [reads_advance (not_isEof_of_isPunct h)]
    exact Iff.rfl
  · exact Iff.rfl

@[simp] theorem reads_expectName {Q : Token → State → Prop} :
    Reads c E expectName s Q ↔ if (c.tokenAt s.pos).isIdent then Q (c.tokenAt s.pos) s.next
      else E (.fault ⟨.expectedName (c.tokenAt s.pos).shown, (c.tokenAt s.pos).line⟩) := by
  simp only [expectName, reads_bind, reads_peek, reads_ite, reads_failAt]
  split
  · rename_i h
    rw [reads_advance (not_isEof_of_isIdent h)]
  · exact Iff.rfl

theorem reads_partner {i j : Nat} {Q : Nat → State → Prop} (h : c.partner? i = some j) :
    Reads c E (partner i) s Q ↔ Q j s := by
  simp only [partner, reads_bind, reads_read, h, reads_pure]

theorem reads_jump {j : Nat} (h : c.partner? s.pos = some j) :
    Reads c E jump s Q ↔ Q () { s with pos := j + 1 } := by
  simp only [jump, reads_bind, reads_get, reads_partner h, reads_moveTo]

theorem reads_jump_none (h : c.partner? s.pos = none) :
    Reads c E jump s Q ↔ E (.noBracket s.pos) := by
  simp only [jump, reads_bind, reads_get, partner, reads_read, h, reads_throw]

@[simp] theorem reads_looksLikeDeclaration {Q : Bool → State → Prop} :
    Reads c E looksLikeDeclaration s Q ↔ Q (c.looksLikeDeclaration s.locals s.pos) s := Iff.rfl

end Tokens

end JniContracts.Parse
