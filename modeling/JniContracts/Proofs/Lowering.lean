import JniContracts.Proofs.Construction

/-!
Statements that have others in them. Each opens the blocks it needs, has its parts added, and links
where control comes out of them.
-/

namespace JniContracts.Flow

open Execution

variable {C : Chart} {exits : List String} {labels : List (String × Nat)} {sc : Scope} {l : Located}
  {dispatch next : Option Nat} {d d' d₁ D D' : Draft} {cs cs' : List Nat} {cur : Nat}

section Opening

variable (ho : Opened labels (some cur) dispatch d) (l : Located)
include ho

theorem changes_openIf : Changes labels cur dispatch d (d.openIf cur l) [] := by
  have hlt := (ho.here cur rfl).1
  exact ((((Changes.refl ho).append _ (.inl rfl) hlt).push _).push _).link (.inl rfl)
    (by simp; omega)

theorem opened_openIf :
    Opened labels (some (d.size + 1)) dispatch (d.openIf cur l) ∧
    (d.openIf cur l).code (d.size + 1) = [] := by
  have hlt := (ho.here cur rfl).1
  have hyes : d.size + 1 ≠ cur := by omega
  refine ⟨(changes_openIf ho l).opened (by omega) (by simp) ?_, ?_⟩
  · simp [Draft.out_openIf, ho.fresh, hyes]
  · simp [Draft.code_openIf _ _ _ hlt, hyes, d.code_of_size_le]

theorem blocks_openIf (h : Adds labels (some (d.size + 1)) dispatch (d.openIf cur l) D next cs) :
    (D.code cur = d.code cur ++ l.condition ∧ D.out labels cur = [⟨cur, d.size + 1, .branchTrue⟩]) ∧
      D.code d.size = [] ∧ D.out labels d.size = [] := by
  obtain ⟨hlt, hout⟩ := ho.here cur rfl
  have hjoin : d.size ≠ cur := by omega
  have hch := changes_openIf ho l
  have hkcur := hch.keeps h (n := cur) (by simp; omega) (by omega) (.inl rfl)
  have hkjoin := hch.keeps h (n := d.size) (by simp) (by omega) (.inr (Nat.le_refl _))
  rw [Draft.code_openIf _ _ _ hlt, Draft.out_openIf] at hkcur hkjoin
  simpa [hout, hjoin, d.code_of_size_le, ho.fresh] using And.intro hkcur hkjoin

theorem changes_openElse (h : Adds labels (some (d.size + 1)) dispatch (d.openIf cur l) D next cs) :
    Changes labels cur dispatch d (D.openElse cur) cs := by
  have hlt := (ho.here cur rfl).1
  have hsize := h.size
  rw [Draft.size_openIf] at hsize
  exact (((changes_openIf ho l).adds (by omega) h).push _).link (.inl rfl) (by simp; omega)

theorem opened_openElse (h : Adds labels (some (d.size + 1)) dispatch (d.openIf cur l) D next cs) :
    Opened labels (some D.size) dispatch (D.openElse cur) ∧ (D.openElse cur).code D.size = [] := by
  have hlt := (ho.here cur rfl).1
  have hsize := h.size
  rw [Draft.size_openIf] at hsize
  have hno : D.size ≠ cur := by omega
  refine ⟨(changes_openElse ho l h).opened (by omega) (by simp) ?_, by simp [Draft.code_of_size_le]⟩
  rw [Draft.out_openElse, h.fresh D.size (Nat.le_refl _), if_neg hno, List.append_nil]

theorem blocks_openElse {next' : Option Nat}
    (h : Adds labels (some (d.size + 1)) dispatch (d.openIf cur l) D next cs)
    (h' : Adds labels (some D.size) dispatch (D.openElse cur) D' next' cs') :
    (D'.code cur = d.code cur ++ l.condition ∧
        D'.out labels cur = [⟨cur, d.size + 1, .branchTrue⟩, ⟨cur, D.size, .branchFalse⟩]) ∧
      (D'.code d.size = [] ∧ D'.out labels d.size = []) ∧
      ∀ n, d.size ≤ n → n < D.size → D'.code n = D.code n ∧ D'.out labels n = D.out labels n := by
  have hlt := (ho.here cur rfl).1
  have hsize := h.size
  rw [Draft.size_openIf] at hsize
  have hch := changes_openElse ho l h
  obtain ⟨hcur, hjoin⟩ := blocks_openIf ho l h
  have hfirst :
      ∀ n, d.size ≤ n → n < D.size → D'.code n = D.code n ∧ D'.out labels n = D.out labels n := by
    intro n hn hlt'
    have hne : n ≠ cur := by omega
    have hkeep := hch.keeps h' (n := n) (by simp; omega) (by omega) (.inr hn)
    rw [Draft.code_openElse, Draft.out_openElse, if_neg hne, List.append_nil] at hkeep
    exact hkeep
  have hkcur := hch.keeps h' (n := cur) (by simp; omega) (by omega) (.inl rfl)
  rw [Draft.code_openElse, Draft.out_openElse, if_pos rfl, hcur.1, hcur.2] at hkcur
  have hkjoin := hfirst d.size (Nat.le_refl _) (by omega)
  exact ⟨hkcur, ⟨hkjoin.1.trans hjoin.1, hkjoin.2.trans hjoin.2⟩, hfirst⟩

theorem changes_openWhile : Changes labels cur dispatch d (d.openWhile cur l) [] := by
  have hlt := (ho.here cur rfl).1
  refine Changes.linkIf (Changes.link (Changes.push (Changes.push (Changes.append (Changes.link
    ((Changes.refl ho).push _) ?_ ?_) _ ?_ ?_) _) _) ?_ ?_) _ ?_ ?_
  all_goals simp <;> omega

theorem opened_openWhile :
    Opened labels (some (d.size + 1)) dispatch (d.openWhile cur l) ∧
    (d.openWhile cur l).code (d.size + 1) = [] := by
  have hlt := (ho.here cur rfl).1
  have hbody : d.size + 1 ≠ cur := by omega
  refine ⟨(changes_openWhile ho l).opened (by omega) (by simp) ?_, ?_⟩
  · simp [Draft.out_openWhile, ho.fresh, hbody]
  · simp [Draft.code_openWhile, d.code_of_size_le]

theorem blocks_openWhile
    (h : Adds labels (some (d.size + 1)) dispatch (d.openWhile cur l) D next cs) :
    (D.code cur = d.code cur ∧ D.out labels cur = [⟨cur, d.size, .fallThrough⟩]) ∧
    (D.code d.size = l.condition ∧ D.out labels d.size = ⟨d.size, d.size + 1, .branchTrue⟩ ::
      if l.stmt.mayEnd = true then [⟨d.size, d.size + 2, .branchFalse⟩] else []) ∧
    D.code (d.size + 2) = [] ∧ D.out labels (d.size + 2) = [] := by
  obtain ⟨hlt, hout⟩ := ho.here cur rfl
  have hheader : d.size ≠ cur := by omega
  have hafter : d.size + 2 ≠ cur := by omega
  have hch := changes_openWhile ho l
  have hkcur := hch.keeps h (n := cur) (by simp; omega) (by omega) (.inl rfl)
  have hkheader := hch.keeps h (n := d.size) (by simp) (by omega) (.inr (by omega))
  have hkafter := hch.keeps h (n := d.size + 2) (by simp) (by omega) (.inr (by omega))
  rw [Draft.code_openWhile, Draft.out_openWhile] at hkcur hkheader hkafter
  refine ⟨?_, ?_, ?_⟩
  · simpa [hout, Ne.symm hheader] using hkcur
  · simpa [hheader, d.code_of_size_le, ho.fresh] using hkheader
  · simpa [hafter, d.code_of_size_le, ho.fresh] using hkafter

theorem changes_openDo : Changes labels cur dispatch d (d.openDo cur) [] := by
  have hlt := (ho.here cur rfl).1
  exact ((((Changes.refl ho).push _).link (.inl rfl) (by simp; omega)).push _).push _

theorem opened_openDo :
    Opened labels (some d.size) dispatch (d.openDo cur) ∧ (d.openDo cur).code d.size = [] := by
  have hlt := (ho.here cur rfl).1
  have hbody : d.size ≠ cur := by omega
  refine ⟨(changes_openDo ho).opened (by omega) (by simp) ?_, by simp [d.code_of_size_le]⟩
  simp [Draft.out_openDo, ho.fresh, hbody]

theorem blocks_closeDo (h : Adds labels (some d.size) dispatch (d.openDo cur) D next cs)
    (hD' : D' = D.closeDo ⟨d.size + 1, d.size + 1, d.size, d.size + 2⟩ l) :
    (D'.code cur = d.code cur ∧ D'.out labels cur = [⟨cur, d.size, .fallThrough⟩]) ∧
      (D'.code (d.size + 1) = l.condition ∧ D'.out labels (d.size + 1) =
        (if l.stmt.mayRepeat = true then [⟨d.size + 1, d.size, .backEdge⟩] else []) ++
          if l.stmt.mayEnd = true then [⟨d.size + 1, d.size + 2, .branchFalse⟩] else []) ∧
      (D'.code (d.size + 2) = [] ∧ D'.out labels (d.size + 2) = []) ∧
      ∀ n, n ≠ d.size + 1 → D'.code n = D.code n ∧ D'.out labels n = D.out labels n := by
  obtain ⟨hlt, hout⟩ := ho.here cur rfl
  have hheader : d.size + 1 ≠ cur := by omega
  have hafter : d.size + 2 ≠ cur := by omega
  have hsize := h.size
  rw [Draft.size_openDo] at hsize
  have hch := changes_openDo ho
  have hkcur := hch.keeps h (n := cur) (by simp; omega) (by omega) (.inl rfl)
  have hkheader := hch.keeps h (n := d.size + 1) (by simp) (by omega) (.inr (by omega))
  have hkafter := hch.keeps h (n := d.size + 2) (by simp) (by omega) (.inr (by omega))
  rw [Draft.code_openDo, Draft.out_openDo] at hkcur hkheader hkafter
  have hother : ∀ n, n ≠ d.size + 1 → D'.code n = D.code n ∧ D'.out labels n = D.out labels n := by
    intro n hn
    rw [hD', Draft.code_closeDo _ _ _ (by simp; omega), Draft.out_closeDo]
    simp [hn]
  refine ⟨?_, ?_, ?_, hother⟩
  · rw [(hother cur (Ne.symm hheader)).1, (hother cur (Ne.symm hheader)).2]
    simpa [hout] using hkcur
  · rw [hD', Draft.code_closeDo _ _ _ (by simp; omega), Draft.out_closeDo, hkheader.1, hkheader.2]
    simp [hheader, d.code_of_size_le, ho.fresh]
  · rw [(hother (d.size + 2) (by omega)).1, (hother (d.size + 2) (by omega)).2]
    simpa [hafter, d.code_of_size_le, ho.fresh] using hkafter

theorem changes_closeDo (h : Adds labels (some d.size) dispatch (d.openDo cur) D next cs) :
    Changes labels cur dispatch d
      (D.closeDo ⟨d.size + 1, d.size + 1, d.size, d.size + 2⟩ l) cs := by
  have hsize := h.size
  rw [Draft.size_openDo] at hsize
  refine Changes.linkIf (Changes.linkIf
    (Changes.append ((changes_openDo ho).adds (Nat.le_refl _) h) _ ?_ ?_) _ ?_ ?_) _ ?_ ?_
  all_goals simp <;> omega

theorem changes_openFor : Changes labels cur dispatch d (d.openFor cur l) [] := by
  have hlt := (ho.here cur rfl).1
  refine Changes.linkIf (Changes.link (Changes.push (Changes.push
    (Changes.link (Changes.append (Changes.push (Changes.append (Changes.link (Changes.push
    (Changes.append (Changes.refl ho) _ ?_ ?_) _) ?_ ?_) _ ?_ ?_) _) _ ?_ ?_) ?_ ?_) _) _) ?_ ?_) _
    ?_ ?_
  all_goals (try simp) <;> omega

theorem opened_openFor :
    Opened labels (some (d.size + 2)) dispatch (d.openFor cur l) ∧
    (d.openFor cur l).code (d.size + 2) = [] := by
  have hlt := (ho.here cur rfl).1
  have hbody : d.size + 2 ≠ cur := by omega
  refine ⟨(changes_openFor ho l).opened (by omega) (by simp) ?_, ?_⟩
  · simp [Draft.out_openFor, ho.fresh, hbody]
  · simp [Draft.code_openFor _ _ _ hlt, hbody, d.code_of_size_le]

theorem blocks_openFor (h : Adds labels (some (d.size + 2)) dispatch (d.openFor cur l) D next cs) :
    (D.code cur = d.code cur ++ l.initial ∧ D.out labels cur = [⟨cur, d.size, .fallThrough⟩]) ∧
    (D.code d.size = l.condition ∧ D.out labels d.size = ⟨d.size, d.size + 2, .branchTrue⟩ ::
      if l.stmt.mayEnd = true then [⟨d.size, d.size + 3, .branchFalse⟩] else []) ∧
    (D.code (d.size + 1) = l.advance ∧
      D.out labels (d.size + 1) = [⟨d.size + 1, d.size, .backEdge⟩]) ∧ D.code (d.size + 3) = [] ∧
    D.out labels (d.size + 3) = [] := by
  obtain ⟨hlt, hout⟩ := ho.here cur rfl
  have hheader : d.size ≠ cur := by omega
  have hstep : d.size + 1 ≠ cur := by omega
  have hafter : d.size + 3 ≠ cur := by omega
  have hch := changes_openFor ho l
  have hkcur := hch.keeps h (n := cur) (by simp; omega) (by omega) (.inl rfl)
  have hkheader := hch.keeps h (n := d.size) (by simp) (by omega) (.inr (by omega))
  have hkstep := hch.keeps h (n := d.size + 1) (by simp) (by omega) (.inr (by omega))
  have hkafter := hch.keeps h (n := d.size + 3) (by simp) (by omega) (.inr (by omega))
  rw [Draft.code_openFor _ _ _ hlt, Draft.out_openFor] at hkcur hkheader hkstep hkafter
  refine ⟨?_, ?_, ?_, ?_⟩
  · simpa [hout, Ne.symm hheader, Ne.symm hstep] using hkcur
  · simpa [hheader, d.code_of_size_le, ho.fresh] using hkheader
  · simpa [hstep, d.code_of_size_le, ho.fresh] using hkstep
  · simpa [hafter, d.code_of_size_le, ho.fresh] using hkafter

theorem changes_openSwitch : Changes labels cur dispatch d (d.openSwitch cur l) [] := by
  have hlt := (ho.here cur rfl).1
  exact (((Changes.refl ho).append _ (.inl rfl) hlt).push _).push _

theorem opened_openSwitch :
    Opened labels (some (d.size + 1)) (some cur) (d.openSwitch cur l) ∧
      (d.openSwitch cur l).code (d.size + 1) = [] := by
  have hlt := (ho.here cur rfl).1
  have hbody : d.size + 1 ≠ cur := by omega
  refine ⟨⟨(changes_openSwitch ho l).fresh, ?_, ?_⟩, ?_⟩
  · rintro _ ⟨⟩
    exact ⟨by simp, by simp [ho.fresh]⟩
  · rintro _ ⟨⟩
    exact ⟨by simp; omega, by simpa using hbody⟩
  · simp [Draft.code_openSwitch _ _ _ hlt, hbody, d.code_of_size_le]

theorem blocks_openSwitch
    (h : Adds labels (some (d.size + 1)) (some cur) (d.openSwitch cur l) D next cs) :
    (D.code cur = d.code cur ++ l.condition ∧ D.out labels cur = cs.map (⟨cur, ·, .switchCase⟩)) ∧
    D.code d.size = [] ∧ D.out labels d.size = [] := by
  obtain ⟨hlt, hout⟩ := ho.here cur rfl
  have hafter : d.size ≠ cur := by omega
  have hbody : d.size + 1 ≠ cur := by omega
  have hcode := h.code cur (by simp; omega) (by simpa using hbody)
  have hcode' := h.code d.size (by simp) (by simp)
  have hcases := h.cases cur rfl
  have hout' := h.out d.size (by simp) (by simp) (by simpa using Ne.symm hafter)
  rw [Draft.code_openSwitch _ _ _ hlt] at hcode hcode'
  rw [Draft.out_openSwitch] at hcases hout'
  simp [hcode, hcode', hcases, hout', hout, hafter, d.code_of_size_le, ho.fresh]

theorem changes_openCase {k : Nat} (hk : dispatch = some k) :
    Changes labels cur dispatch d (d.openCase cur k) [d.size] := by
  have hlt := (ho.here cur rfl).1
  exact (((Changes.refl ho).push _).link (.inl rfl) (by simp; omega)).linkCase hk

theorem opened_openCase {k : Nat} (hk : dispatch = some k) :
    Opened labels (some d.size) dispatch (d.openCase cur k) ∧
      (d.openCase cur k).out labels cur = [⟨cur, d.size, .fallThrough⟩] := by
  obtain ⟨hlt, hout⟩ := ho.here cur rfl
  obtain ⟨hklt, hkne⟩ := ho.away k hk
  simp only [ne_eq, Option.some.injEq] at hkne
  have hnew : d.size ≠ cur := by omega
  have hnew' : d.size ≠ k := by omega
  refine ⟨(changes_openCase ho hk).opened (Nat.le_refl _)
    (by simp) ?_, by simp [Draft.out_openCase, hkne, hout]⟩
  simp [Draft.out_openCase, ho.fresh, hnew, hnew']

theorem changes_openLabel (name : String) :
    Changes labels cur dispatch d (d.openLabel cur name) [] := by
  have hlt := (ho.here cur rfl).1
  exact (((Changes.refl ho).push _).link (.inl rfl) (by simp; omega)).name

theorem opened_openLabel (name : String) :
    Opened labels (some d.size) dispatch (d.openLabel cur name) ∧
      (d.openLabel cur name).out labels cur = [⟨cur, d.size, .fallThrough⟩] := by
  obtain ⟨hlt, hout⟩ := ho.here cur rfl
  have hnew : d.size ≠ cur := by omega
  refine ⟨(changes_openLabel ho name).opened (Nat.le_refl _)
    (by simp) ?_, by simp [Draft.out_openLabel, hout]⟩
  simp [Draft.out_openLabel, ho.fresh, hnew]

end Opening

theorem adequate_ifOnly {a : Stmt} (c : Expr) (p : Pos) (ha : Adequate exits labels a) :
    Adequate exits labels (.ifElse c a none p) := by
  refine adequate_of_some fun sc up addr cur d next d' hrun ho => ?_
  obtain ⟨r, d₁, rfl, hrun₁, rfl⟩ := addStmt_ifOnly hrun
  obtain ⟨hlt, hout⟩ := ho.here cur rfl
  have hjoin : d.size ≠ cur := by omega
  obtain ⟨ho₁, hnew⟩ := opened_openIf ho ⟨up, addr, .ifElse c a none p⟩
  obtain ⟨cs, h⟩ := ha _ _ _ _ _ _ _ hrun₁ ho₁
  obtain ⟨hadds, hlaid⟩ := h.leave ho₁ d.size .fallThrough (by simp)
  have hsize := hadds.size
  simp only [Draft.size_openIf, Draft.size_leave] at hsize
  obtain ⟨hkcur, hkjoin⟩ := blocks_openIf ho _ hadds
  refine ⟨cs,
    (((changes_openIf ho _).adds (by omega) hadds).link (.inl rfl) (by simp; omega)).toAdds ?_,
    fun x hx => ?_, fun C hC => ?_⟩
  · rintro _ ⟨⟩
    exact ⟨by simp; omega, by simp [hkjoin.2, hjoin], .inr (Nat.le_refl _)⟩
  · exact (h.named x (by simpa [Draft.link] using hx)).imp id fun hn => hn.part fun k => ⟨k, .yes⟩
  · obtain ⟨hc, hedge⟩ := hC.done cur (by simp; omega) (.inl rfl) (by simpa using hjoin)
    have hsub : Owned C labels (some (d.size + 1)) (d.openIf cur ⟨up, addr, .ifElse c a none p⟩)
        (d₁.leave r d.size .fallThrough) none := by
      refine hC.sub (fun b hb hown _ => ?_) (by simp) (List.Subset.refl _) (List.Subset.refl _)
      simp only [Option.some.injEq, Draft.size_openIf] at hown
      have hne : b ≠ cur := by omega
      exact ⟨hb, .inr (by omega), by simp; omega, rfl, by simp [hne]⟩
    obtain ⟨out, hl, hj⟩ := hlaid C hsub
    rw [Draft.code_link, hkcur.1] at hc
    rw [Draft.front_new hnew] at hl
    rw [Draft.back_new (by rw [Draft.code_link, hkjoin.1])]
    refine .ifOnly (Chart.reads_of_code hc)
      (Chart.ends_of_out hc ?_) hl hj
    simp [hedge, hkcur.2]

theorem adequate_ifElse {a b : Stmt} (c : Expr) (p : Pos) (ha : Adequate exits labels a)
    (hb : Adequate exits labels b) : Adequate exits labels (.ifElse c a (some b) p) := by
  refine adequate_of_some fun sc up addr cur d next d' hrun ho => ?_
  obtain ⟨r, d₁, r', d₃, rfl, hrun₁, hrun₂, rfl⟩ := addStmt_ifElse hrun
  obtain ⟨hlt, hout⟩ := ho.here cur rfl
  have hjoin : d.size ≠ cur := by omega
  obtain ⟨ho₁, hnew⟩ := opened_openIf ho ⟨up, addr, .ifElse c a (some b) p⟩
  obtain ⟨cs, h⟩ := ha _ _ _ _ _ _ _ hrun₁ ho₁
  obtain ⟨hadds, hlaid⟩ := h.leave ho₁ d.size .fallThrough (by simp)
  have hsize := hadds.size
  simp only [Draft.size_openIf, Draft.size_leave] at hsize
  obtain ⟨ho₂, hnew'⟩ := opened_openElse ho _ hadds
  rw [Draft.size_leave] at ho₂ hnew'
  obtain ⟨cs', h'⟩ := hb _ _ _ _ _ _ _ hrun₂ ho₂
  obtain ⟨hadds', hlaid'⟩ := h'.leave ho₂ d.size .fallThrough (by simp)
  have hsize' := hadds'.size
  simp only [Draft.size_openElse, Draft.size_leave] at hsize'
  obtain ⟨hkcur, hkjoin, hfirst⟩ := blocks_openElse ho _ hadds (by simpa using hadds')
  rw [Draft.size_leave] at hkcur hfirst
  refine ⟨cs ++ cs', ((changes_openElse ho _ hadds).adds (by omega) hadds').toAdds ?_,
    fun x hx => ?_, fun C hC => ?_⟩
  · rintro _ ⟨⟩
    exact ⟨by simp; omega, hkjoin.2, .inr (Nat.le_refl _)⟩
  · rcases h'.named x (by simpa using hx) with hx | hn
    · refine (h.named x ?_).imp id fun hn => hn.part fun k => ⟨k, .yes⟩
      simpa [Draft.openElse, Draft.link, Draft.push] using hx
    · exact .inr (hn.part fun k => ⟨k, .no⟩)
  · obtain ⟨hc, hedge⟩ := hC.done cur (by simp; omega) (.inl rfl) (by simpa using hjoin)
    have hsub : Owned C labels (some (d.size + 1)) (d.openIf cur ⟨up, addr, .ifElse c a (some b) p⟩)
        (d₁.leave r d.size .fallThrough) none := by
      refine hC.sub (fun n hn hown _ => ?_) (by simp) hadds'.names hadds'.gotos
      simp only [Option.some.injEq, Draft.size_openIf, Draft.size_leave] at hown hn
      exact ⟨by simp; omega, .inr (by omega), by simp; omega, hfirst n (by omega) hn⟩
    have hsub' : Owned C labels (some d₁.size) ((d₁.leave r d.size .fallThrough).openElse cur)
        (d₃.leave r' d.size .fallThrough) none := by
      refine hC.sub (fun n hn hown _ => ?_) (by simp) (List.Subset.refl _) (List.Subset.refl _)
      simp only [Option.some.injEq, Draft.size_openElse, Draft.size_leave] at hown
      exact ⟨hn, .inr (by omega), by simp; omega, rfl, rfl⟩
    obtain ⟨out, hl, hj⟩ := hlaid C hsub
    obtain ⟨out', hl', hj'⟩ := hlaid' C hsub'
    rw [hkcur.1] at hc
    rw [hkcur.2] at hedge
    rw [Draft.front_new hnew] at hl
    rw [Draft.front_new hnew'] at hl'
    rw [Draft.back_new hkjoin.1]
    exact .ifElse (Chart.reads_of_code hc) (Chart.ends_of_out hc hedge) hl hl' hj hj'

theorem adequate_whileDo {b : Stmt} (c : Expr) (p : Pos) (hb : Adequate exits labels b) :
    Adequate exits labels (.whileDo c b p) := by
  refine adequate_of_some fun sc up addr cur d next d' hrun ho => ?_
  obtain ⟨r, d₁, rfl, hrun₁, rfl⟩ := addStmt_whileDo hrun
  obtain ⟨hlt, hout⟩ := ho.here cur rfl
  have hafter : d.size + 2 ≠ cur := by omega
  obtain ⟨ho₁, hnew⟩ := opened_openWhile ho ⟨up, addr, .whileDo c b p⟩
  obtain ⟨cs, h⟩ := hb _ _ _ _ _ _ _ hrun₁ ho₁
  obtain ⟨hadds, hlaid⟩ := h.leave ho₁ d.size .backEdge (by simp)
  have hsize := hadds.size
  simp only [Draft.size_openWhile, Draft.size_leave] at hsize
  obtain ⟨hkcur, hkheader, hkafter⟩ := blocks_openWhile ho _ hadds
  refine ⟨cs, ((changes_openWhile ho _).adds (by omega) hadds).toAdds ?_, fun x hx => ?_,
    fun C hC => ?_⟩
  · rintro _ ⟨⟩
    exact ⟨by simp; omega, hkafter.2, .inr (by omega)⟩
  · refine (h.named x (by simpa using hx)).imp (fun hx => ?_) fun hn => hn.part
      fun k => ⟨_, .loop rfl⟩
    rwa [Draft.labels_openWhile] at hx
  · obtain ⟨hc, hedge⟩ := hC.done cur (by simp; omega) (.inl rfl) (by simpa using hafter)
    obtain ⟨hc', hedge'⟩ := hC.done d.size (by simp; omega) (.inr (by omega)) (by simp)
    have hsub : Owned C labels (some (d.size + 1)) (d.openWhile cur ⟨up, addr, .whileDo c b p⟩)
        (d₁.leave r d.size .backEdge) none := by
      refine hC.sub (fun n hn hown _ => ?_) (by simp) (List.Subset.refl _) (List.Subset.refl _)
      simp only [Option.some.injEq, Draft.size_openWhile] at hown
      exact ⟨hn, .inr (by omega), by simp; omega, rfl, rfl⟩
    obtain ⟨out, hl, hj⟩ := hlaid C hsub
    have hc : C.code cur = d.code cur ++ [] := by rw [hc, hkcur.1, List.append_nil]
    rw [hkheader.1] at hc'
    rw [Draft.front_new hnew] at hl
    rw [Draft.back_new hkafter.1]
    refine .whileDo (m := ⟨d.size, d.size, d.size + 1, d.size + 2⟩)
      (.mk rfl hc' ?_ (.inl ⟨rfl, rfl⟩) hl hj)
        (Chart.leads_of_out hc (hedge.trans hkcur.2) (by simp))
    rw [hedge', hkheader.2]
    simp [Stmt.mayRepeat, bodyEdge]

theorem adequate_doWhile {b : Stmt} (c : Expr) (p : Pos) (hb : Adequate exits labels b) :
    Adequate exits labels (.doWhile b c p) := by
  refine adequate_of_some fun sc up addr cur d next d' hrun ho => ?_
  obtain ⟨r, d₁, rfl, hrun₁, hd'⟩ := addStmt_doWhile hrun
  obtain ⟨hlt, hout⟩ := ho.here cur rfl
  have hafter : d.size + 2 ≠ cur := by omega
  obtain ⟨ho₁, hnew⟩ := opened_openDo ho
  obtain ⟨cs, h⟩ := hb _ _ _ _ _ _ _ hrun₁ ho₁
  obtain ⟨hadds, hlaid⟩ := h.leave ho₁ (d.size + 1) .fallThrough (by simp)
  obtain ⟨hkcur, hkheader, hkafter, hother⟩ := blocks_closeDo ho _ hadds hd'
  have hclosed := changes_closeDo ho ⟨up, addr, .doWhile b c p⟩ hadds
  have hsize := hadds.size
  rw [← hd'] at hclosed
  have hsize' : d'.size = d₁.size := by simp [hd']
  simp only [Draft.size_openDo, Draft.size_leave] at hsize
  refine ⟨cs, hclosed.toAdds ?_, fun x hx => ?_, fun C hC => ?_⟩
  · rintro _ ⟨⟩
    exact ⟨by omega, hkafter.2, .inr (by omega)⟩
  · exact (h.named x (by simpa [hd'] using hx)).imp id fun hn => hn.part fun k => ⟨_, .loop rfl⟩
  · obtain ⟨hc, hedge⟩ := hC.done cur (by omega) (.inl rfl) (by simpa using hafter)
    obtain ⟨hc', hedge'⟩ := hC.done (d.size + 1) (by omega) (.inr (by omega)) (by simp)
    have hsub :
        Owned C labels (some d.size) (d.openDo cur)
          (d₁.leave r (d.size + 1) .fallThrough) none := by
      refine hC.sub (fun n hn hown _ => ?_) (by simp) (by simp [hd']) (by simp [hd'])
      simp only [Option.some.injEq, Draft.size_openDo, Draft.size_leave] at hown hn
      exact ⟨by omega, .inr (by omega), by simp; omega, hother n (by omega)⟩
    obtain ⟨out, hl, hj⟩ := hlaid C hsub
    have hc : C.code cur = d.code cur ++ [] := by rw [hc, hkcur.1, List.append_nil]
    rw [hkheader.1] at hc'
    rw [Draft.front_new hnew] at hl
    rw [Draft.back_new hkafter.1]
    exact .doWhile (m := ⟨d.size + 1, d.size + 1, d.size, d.size + 2⟩)
      (.mk rfl hc' (hedge'.trans hkheader.2) (.inl ⟨rfl, rfl⟩) hl hj)
      (Chart.leads_of_out hc (hedge.trans hkcur.2) (by simp))

theorem adequate_forDo {b : Stmt} (i : Option Simple) (c t : Option Expr) (p : Pos)
    (hb : Adequate exits labels b) : Adequate exits labels (.forDo i c t b p) := by
  refine adequate_of_some fun sc up addr cur d next d' hrun ho => ?_
  obtain ⟨r, d₁, rfl, hrun₁, rfl⟩ := addStmt_forDo hrun
  obtain ⟨hlt, hout⟩ := ho.here cur rfl
  have hafter : d.size + 3 ≠ cur := by omega
  obtain ⟨ho₁, hnew⟩ := opened_openFor ho ⟨up, addr, .forDo i c t b p⟩
  obtain ⟨cs, h⟩ := hb _ _ _ _ _ _ _ hrun₁ ho₁
  obtain ⟨hadds, hlaid⟩ := h.leave ho₁ (d.size + 1) .fallThrough (by simp)
  have hsize := hadds.size
  simp only [Draft.size_openFor, Draft.size_leave] at hsize
  obtain ⟨hkcur, hkheader, hkstep, hkafter⟩ := blocks_openFor ho _ hadds
  refine ⟨cs, ((changes_openFor ho _).adds (by omega) hadds).toAdds ?_, fun x hx => ?_,
    fun C hC => ?_⟩
  · rintro _ ⟨⟩
    exact ⟨by simp; omega, hkafter.2, .inr (by omega)⟩
  · refine (h.named x (by simpa using hx)).imp (fun hx => ?_) fun hn => hn.part
      fun k => ⟨_, .loop rfl⟩
    rwa [Draft.labels_openFor] at hx
  · obtain ⟨hc, hedge⟩ := hC.done cur (by simp; omega) (.inl rfl) (by simpa using hafter)
    obtain ⟨hc', hedge'⟩ := hC.done d.size (by simp; omega) (.inr (by omega)) (by simp)
    obtain ⟨hc'', hedge''⟩ := hC.done (d.size + 1) (by simp; omega) (.inr (by omega)) (by simp)
    have hsub : Owned C labels (some (d.size + 2)) (d.openFor cur ⟨up, addr, .forDo i c t b p⟩)
        (d₁.leave r (d.size + 1) .fallThrough) none := by
      refine hC.sub (fun n hn hown _ => ?_) (by simp) (List.Subset.refl _) (List.Subset.refl _)
      simp only [Option.some.injEq, Draft.size_openFor] at hown
      exact ⟨hn, .inr (by omega), by simp; omega, rfl, rfl⟩
    obtain ⟨out, hl, hj⟩ := hlaid C hsub
    rw [hkcur.1] at hc
    rw [hkheader.1] at hc'
    have hc'' : C.code (d.size + 1) = [] ++ Located.advance ⟨up, addr, .forDo i c t b p⟩ :=
      hc''.trans hkstep.1
    rw [Draft.front_new hnew] at hl
    rw [Draft.back_new hkafter.1]
    have hadvance :
        C.Leads
          ⟨d.size + 1, [].length + (Located.advance ⟨up, addr, .forDo i c t b p⟩).length⟩ d.size :=
      Chart.leads_of_out hc'' (hedge''.trans hkstep.2) (by simp)
    rw [List.length_nil, Nat.zero_add] at hadvance
    refine .forDo (m := ⟨d.size, d.size + 1, d.size + 2, d.size + 3⟩)
      (Chart.reads_of_code hc)
      (.mk rfl hc' ?_ (.inr ⟨hc'', hadvance⟩) hl hj)
        (Chart.leads_of_out hc (hedge.trans hkcur.2) (by simp))
    rw [hedge', hkheader.2]
    simp [Stmt.mayRepeat, bodyEdge]

theorem adequate_switch {b : Stmt} (c : Expr) (p : Pos) (hb : Adequate exits labels b) :
    Adequate exits labels (.switch c b p) := by
  refine adequate_of_some fun sc up addr cur d next d' hrun ho => ?_
  obtain ⟨r, d₁, rfl, hrun₁, rfl⟩ := addStmt_switch hrun
  obtain ⟨hlt, hout⟩ := ho.here cur rfl
  have hafter : d.size ≠ cur := by omega
  obtain ⟨ho₁, hnew⟩ := opened_openSwitch ho ⟨up, addr, .switch c b p⟩
  obtain ⟨cs, h⟩ := hb _ _ _ _ _ _ _ hrun₁ ho₁
  obtain ⟨hadds, hlaid⟩ := h.leave ho₁ d.size .fallThrough (by simp)
  have hsize := hadds.size
  simp only [Draft.size_openSwitch, Draft.size_leave] at hsize
  obtain ⟨hkcur, hkafter⟩ := blocks_openSwitch ho _ hadds
  refine ⟨[], (((changes_openSwitch ho _).addsSwitch (by omega) hadds).linkIf _ (.inl rfl)
    (by simp; omega)).toAdds ?_, fun x hx => ?_, fun C hC => ?_⟩
  · rintro _ ⟨⟩
    refine ⟨by simp; omega, ?_, .inr (Nat.le_refl _)⟩
    rw [Draft.out_linkIf, hkafter.2]
    simp [hafter]
  · exact (h.named x (by simpa using hx)).imp id fun hn => hn.part fun k => ⟨_, .switch⟩
  · obtain ⟨hc, hedge⟩ := hC.done cur (by simp; omega) (.inl rfl) (by simpa using hafter)
    have hsub : Owned C labels (some (d.size + 1)) (d.openSwitch cur ⟨up, addr, .switch c b p⟩)
        (d₁.leave r d.size .fallThrough) none := by
      refine hC.sub (fun n hn hown _ => ?_) (by simp) (by simp) (by simp)
      simp only [Option.some.injEq, Draft.size_openSwitch] at hown
      have hne : n ≠ cur := by omega
      exact ⟨by simpa using hn, .inr (by omega), by simp; omega, by simp, by simp [hne]⟩
    obtain ⟨out, hl, hj⟩ := hlaid C hsub
    rw [Draft.code_linkIf, hkcur.1] at hc
    rw [Draft.front_new hnew] at hl
    rw [Draft.back_new (by rw [Draft.code_linkIf, hkafter.1])]
    refine .switch (Chart.reads_of_code hc)
      (Chart.ends_of_out hc ?_) hl hj
    rw [hedge, Draft.out_linkIf, hkcur.2]
    cases hasDefault b <;> simp

/-- A statement with a mark in front of it is added in a new block, and control falls into that
block. -/
theorem Lays.marked {cs₀ : List Nat} {d₀ : Draft}
    (h : Lays exits labels sc l (some d.size) d₀ d' next cs)
    (hch : Changes labels cur sc.dispatch d d₀ cs₀) (hlt : cur < d.size)
    (hsize : d₀.size = d.size + 1) (hcode : ∀ b, d₀.code b = d.code b)
    (hout : d₀.out labels cur = [⟨cur, d.size, .fallThrough⟩]) :
    Adds labels (some cur) sc.dispatch d d' next (cs₀ ++ cs) ∧
    ∀ C : Chart, Owned C labels (some cur) d d' next → C.Leads (d.front (some cur)) d.size ∧
    Laid C exits labels sc l ⟨d.size, 0⟩ (d'.back next) cs := by
  have hnext : ∀ n, next = some n → n < d'.size ∧ d'.out labels n = [] ∧ d.size ≤ n := by
    intro n hn
    obtain ⟨hlt, hout, hown⟩ := h.adds.next n hn
    rw [Option.some.injEq] at hown
    exact ⟨hlt, hout, by omega⟩
  refine ⟨(hch.adds (Nat.le_refl _) h.adds).toAdds fun n hn => ?_, fun C hC => ?_⟩
  · obtain ⟨hlt, hout, hle⟩ := hnext n hn
    exact ⟨hlt, hout, .inr hle⟩
  · have hgrown := h.adds.size
    have hne : next ≠ some cur := fun hn => by
      have hle := (hnext cur hn).2.2
      omega
    have hkeep := hch.keeps h.adds (n := cur) (by omega) (by omega) (.inl rfl)
    obtain ⟨hc, hedge⟩ := hC.done cur (by omega) (.inl rfl) hne
    have hc' : C.code cur = d.code cur ++ [] := by rw [hc, hkeep.1, hcode, List.append_nil]
    have hlead : C.out cur = [⟨cur, d.size, .fallThrough⟩] := by rw [hedge, hkeep.2, hout]
    have hsub : Owned C labels (some d.size) d₀ d' next := by
      refine hC.sub (fun n hn hown hne => ?_) hC.begun (List.Subset.refl _) (List.Subset.refl _)
      rw [Option.some.injEq] at hown
      exact ⟨hn, .inr (by omega), hne, rfl, rfl⟩
    have hl := h.laid C hsub
    rw [Draft.front_new (by simp [hcode, d.code_of_size_le])] at hl
    exact ⟨Chart.leads_of_out hc' hlead (by simp), hl⟩

theorem adequate_case {b : Stmt} (v : Option Expr) (p : Pos) (hb : Adequate exits labels b) :
    Adequate exits labels (.case v b p) := by
  refine adequate_of_some fun sc up addr cur d next d' hrun ho => ?_
  obtain ⟨k, hk, hrun₁⟩ := addStmt_case hrun
  obtain ⟨hlt, -⟩ := ho.here cur rfl
  obtain ⟨ho₁, hout⟩ := opened_openCase ho hk
  obtain ⟨cs, h⟩ := hb _ _ _ _ _ _ _ hrun₁ ho₁
  obtain ⟨hadds, hlaid⟩ := h.marked (changes_openCase ho hk) hlt (by simp) (by simp) hout
  refine ⟨d.size :: cs, hadds, fun x hx => ?_, fun C hC => ?_⟩
  · exact (h.named x hx).imp id fun hn => hn.part fun k => ⟨_, .case⟩
  · obtain ⟨hlead, hl⟩ := hlaid C hC
    exact .case hlead hl

theorem adequate_label {b : Stmt} (name : String) (p : Pos) (hb : Adequate exits labels b) :
    Adequate exits labels (.label name b p) := by
  refine adequate_of_some fun sc up addr cur d next d' hrun ho => ?_
  obtain ⟨-, hrun₁⟩ := addStmt_label hrun
  obtain ⟨hlt, -⟩ := ho.here cur rfl
  obtain ⟨ho₁, hout⟩ := opened_openLabel ho name
  obtain ⟨cs, h⟩ := hb _ _ _ _ _ _ _ hrun₁ ho₁
  obtain ⟨hadds, hlaid⟩ := h.marked (changes_openLabel ho name) hlt (by simp) (by simp) hout
  refine ⟨cs, hadds, fun x hx => ?_, fun C hC => ?_⟩
  · rcases h.named x hx with hx | hn
    · rcases List.mem_append.mp hx with hx | hx
      · exact .inl hx
      · rw [List.mem_singleton.mp hx]
        exact .inr fun k => ⟨_, _, b, p, .here _ k, rfl⟩
    · exact .inr (hn.part fun k => ⟨_, .label⟩)
  · obtain ⟨hlead, hl⟩ := hlaid C hC
    refine .label (hC.names (h.adds.names ?_)) hlead hl
    simp [Draft.openLabel, Draft.name]

mutual
/-- Every statement that can be added is laid where it should be. -/
theorem adequate : ∀ s : Stmt, Adequate exits labels s
  | .block ss p => adequate_block p (adequateAll ss)
  | .simple x => adequate_simple x
  | .ret v p => adequate_ret v p
  | .goto name p => adequate_goto name p
  | .brk p => adequate_brk p
  | .cont p => adequate_cont p
  | .empty p => adequate_empty p
  | .ifElse c a none p => adequate_ifOnly c p (adequate a)
  | .ifElse c a (some b) p => adequate_ifElse c p (adequate a) (adequate b)
  | .whileDo c b p => adequate_whileDo c p (adequate b)
  | .doWhile b c p => adequate_doWhile c p (adequate b)
  | .forDo i c t b p => adequate_forDo i c t p (adequate b)
  | .switch c b p => adequate_switch c p (adequate b)
  | .case v b p => adequate_case v p (adequate b)
  | .label name b p => adequate_label name p (adequate b)

theorem adequateAll : ∀ ss : List Stmt, AdequateAll exits labels ss
  | [] => adequateAll_nil
  | s :: ss => adequateAll_cons (adequate s) (adequateAll ss)
end

end JniContracts.Flow
