import JniContracts.Proofs.Instances
import JniContracts.Proofs.Spelling.Uniform

/-!
Patterns do not see how interface calls are spelled. The calls of the pattern have to be interface
calls or calls of a plain name: the function of any other call is matched as it is written.
-/

namespace JniContracts

theorem suffixes_map {α β : Type} (f : α → β) (l : List α) :
    suffixes (l.map f) = (suffixes l).map (List.map f) := by
  induction l with
  | nil => rfl
  | cons a l ih => rw [List.map_cons, suffixes, suffixes, ih, List.map_cons, List.map_cons]

namespace Expr

theorem walkAll_eq (es : List Expr) : walkAll es = es.flatMap walk := by
  induction es with
  | nil => rfl
  | cons e es ih => rw [walkAll, ih, List.flatMap_cons]

theorem walk_eq (e : Expr) : e.walk = e :: e.children.flatMap walk := by
  cases e <;> simp [walk, children, walkAll_eq]

/-- All calls of a pattern are interface calls or calls of a plain name. -/
def Portable (p : Expr) : Prop := ∀ c ∈ p.calls, c.viaInterface = true ∨ c.func.name?.isSome = true

instance (p : Expr) : Decidable p.Portable := inferInstanceAs (Decidable (∀ c ∈ p.calls, _))

theorem Portable.child {p q : Expr} (h : p.Portable) (hq : q ∈ p.children) : q.Portable := by
  intro c hc
  refine h c ?_
  obtain ⟨e, he, hce⟩ := List.mem_filterMap.mp hc
  refine List.mem_filterMap.mpr ⟨e, ?_, hce⟩
  rw [walk_eq]
  exact List.mem_cons_of_mem _ (List.mem_flatMap.mpr ⟨q, hq, he⟩)

theorem Portable.func {f : Expr} {args : List Expr} {q : Pos} (h : (call f args false q).Portable) :
    ∃ p, f.name? = some p := by
  have hmem : (⟨f, args, false, q⟩ : Call) ∈ (call f args false q).calls :=
    List.mem_filterMap.mpr ⟨_, by rw [walk_eq]; exact List.mem_cons_self, rfl⟩
  rcases h _ hmem with h | h
  · cases h
  · exact Option.isSome_iff_exists.mp h

theorem instancesOfAll_cons {p : Expr} (hp : ∀ q, p ≠ ellipsis q) (ps : List Expr) (n : Expr)
    (ns : List Expr) (b : Bindings) :
    instancesOfAll (p :: ps) (n :: ns) b =
    (p.instances n b).flatMap fun b => instancesOfAll ps ns b := by
  cases p with
  | ellipsis q => exact absurd rfl (hp q)
  | _ => rw [instancesOfAll]; simp

theorem instances_interfaceCall_uniform (f : Expr) (args : List Expr) (q : Pos)
    (hown : ∀ ns b, instancesOfAll (args.drop f.repeated) (ns.map uniform) b =
      instancesOfAll (args.drop f.repeated) ns b) (n : Expr) (b : Bindings) :
    (call f args true q).instances n.uniform b = (call f args true q).instances n b := by
  have hu : n.uniform.strip.call? = n.strip.call?.map Call.uniform := by
    rw [strip_uniform, call?_uniform]
  cases hc : n.strip.call? with
  | none =>
    rw [hc] at hu
    rw [instances, instances]
    simp only [hu, hc, Option.map_none]
  | some c =>
    rw [hc] at hu
    have hvia := c.viaInterface_uniform
    cases hi : c.viaInterface with
    | false =>
      rw [instances, instances]
      simp only [hu, hc, Option.map_some, hvia, hi, if_true, Bool.false_eq_true, if_false]
    | true =>
      rw [instances_interfaceCall f args q hu (hvia.trans hi),
        instances_interfaceCall f args q hc hi, c.receiver?_uniform, c.callee?_uniform,
        c.ownArgs_uniform, Call.ownArgs_eq, funext (hown c.ownArgs)]

/-- A plain call pattern has the callee of an interface call, or it is matched part by part. -/
theorem instances_plainCall_uniform (f : Expr) (args : List Expr) (q : Pos)
    (hname : ∃ p, f.name? = some p) (hf : ∀ n b, f.instances n.uniform b = f.instances n b)
    (hargs : ∀ ns b, instancesOfAll args (ns.map uniform) b = instancesOfAll args ns b) (n : Expr)
    (b : Bindings) :
    (call f args false q).instances n.uniform b = (call f args false q).instances n b := by
  obtain ⟨p, hp⟩ := hname
  have hu : n.uniform.strip.call? = n.strip.call?.map Call.uniform := by
    rw [strip_uniform, call?_uniform]
  cases hc : n.strip.call? with
  | none =>
    rw [hc] at hu
    rw [instances, instances]
    simp only [hu, hc, Option.map_none]
  | some c =>
    rw [hc] at hu
    have hvia := c.viaInterface_uniform
    rw [instances, instances]
    cases hi : c.viaInterface with
    | false =>
      obtain ⟨g, as, via, r⟩ := c
      cases hi
      have hplain : Call.uniform ⟨g, as, false, r⟩ = ⟨g.uniform, as.map uniform, false, r.flat⟩ :=
        Call.uniform_of_plain (by simp)
      simp only [hu, hc, Option.map_some, hplain, hf, hargs, Bool.false_eq_true, if_false]
    | true =>
      simp only [hu, hc, Option.map_some, hvia, hi, hp, c.callee?_uniform, c.ownArgs_uniform, hargs,
        Bool.false_eq_true, if_false]

mutual
theorem instances_uniform : (p : Expr) → p.Portable → (n : Expr) → (b : Bindings) →
    p.instances n.uniform b = p.instances n b
  | ellipsis _, _, n, b => rfl
  | name p q, _, n, b => by
    rw [instances, instances, strip_uniform]
    cases soleVariable? p with
    | some v => simp only [render_uniform]
    | none =>
      cases n.strip with
      | call f args via r =>
        obtain ⟨f', args', h⟩ := exists_uniform_call f args via r
        rw [h]
      | _ => rfl
  | call f args true q, h, n, b => by
    have hargs : ∀ a ∈ args, a.Portable := fun a ha => h.child (List.mem_cons_of_mem _ ha)
    exact instances_interfaceCall_uniform f args q
      (instancesOfAll_uniform args hargs f.repeated) n b
  | call f args false q, h, n, b => by
    have hf : f.Portable := h.child List.mem_cons_self
    have hargs : ∀ a ∈ args, a.Portable := fun a ha => h.child (List.mem_cons_of_mem _ ha)
    exact instances_plainCall_uniform f args q h.func (instances_uniform f hf)
      (instancesOfAll_uniform args hargs 0) n b
  | literal t k q, _, n, b => by
    rw [instances, instances, strip_uniform]
    cases n.strip with
    | call f args via r =>
      obtain ⟨f', args', h⟩ := exists_uniform_call f args via r
      rw [h]
    | _ => rfl
  | member o attr arrow q, h, n, b => by
    have ho := instances_uniform o (h.child (by simp [children]))
    rw [instances, instances, strip_uniform]
    cases n.strip with
    | member o' attr' arrow' r => simp only [uniform, ho]
    | call f args via r =>
      obtain ⟨f', args', h⟩ := exists_uniform_call f args via r
      rw [h]
    | _ => rfl
  | index o i q, h, n, b => by
    have ho := instances_uniform o (h.child (by simp [children]))
    have hi := instances_uniform i (h.child (by simp [children]))
    rw [instances, instances, strip_uniform]
    cases n.strip with
    | index o' i' r => simp only [uniform, ho, funext (hi i')]
    | call f args via r =>
      obtain ⟨f', args', h⟩ := exists_uniform_call f args via r
      rw [h]
    | _ => rfl
  | unary op e side q, h, n, b => by
    have he := instances_uniform e (h.child (by simp [children]))
    rw [instances, instances, strip_uniform]
    cases n.strip with
    | unary op' e' side' r => simp only [uniform, he]
    | call f args via r =>
      obtain ⟨f', args', h⟩ := exists_uniform_call f args via r
      rw [h]
    | _ => rfl
  | binary op l r q, h, n, b => by
    have hl := instances_uniform l (h.child (by simp [children]))
    have hr := instances_uniform r (h.child (by simp [children]))
    rw [instances, instances, strip_uniform]
    cases n.strip with
    | binary op' l' r' s => simp only [uniform, hl, funext (hr l'), funext (hr r')]
    | call f args via r =>
      obtain ⟨f', args', h⟩ := exists_uniform_call f args via r
      rw [h]
    | _ => rfl
  | conditional c x y q, h, n, b => by
    have hc := instances_uniform c (h.child (by simp [children]))
    have hx := instances_uniform x (h.child (by simp [children]))
    have hy := instances_uniform y (h.child (by simp [children]))
    rw [instances, instances, strip_uniform]
    cases n.strip with
    | conditional c' x' y' r => simp only [uniform, hc, funext (hx x'), funext (hy y')]
    | call f args via r =>
      obtain ⟨f', args', h⟩ := exists_uniform_call f args via r
      rw [h]
    | _ => rfl
  | assign op t v q, h, n, b => by
    have ht := instances_uniform t (h.child (by simp [children]))
    have hv := instances_uniform v (h.child (by simp [children]))
    rw [instances, instances, strip_uniform]
    cases n.strip with
    | assign op' t' v' r => simp only [uniform, ht, funext (hv v')]
    | call f args via r =>
      obtain ⟨f', args', h⟩ := exists_uniform_call f args via r
      rw [h]
    | _ => rfl
  | cast t e q, h, n, b => by
    have he := instances_uniform e (h.child (by simp [children]))
    cases n with
    | cast t' e' r => simp only [uniform, instances, he]
    | call f args via r => exact apply_uniform_call (instances (cast t e q) · b) fun _ _ => rfl
    | _ => rfl
  | initList es q, h, n, b => by
    have hes := instancesOfAll_uniform es (fun e he => h.child he) 0
    rw [instances, instances, strip_uniform]
    cases n.strip with
    | initList es' r => simpa only [uniform, uniformAll_eq, List.drop_zero] using hes es' b
    | call f args via r =>
      obtain ⟨f', args', h⟩ := exists_uniform_call f args via r
      rw [h]
    | _ => rfl
  | verbatim t q, _, n, b => by
    rw [instances, instances, strip_uniform]
    cases n.strip with
    | call f args via r =>
      obtain ⟨f', args', h⟩ := exists_uniform_call f args via r
      rw [h]
    | _ => rfl

theorem instancesOfAll_uniform :
    (ps : List Expr) → (∀ p ∈ ps, p.Portable) → (k : Nat) → (ns : List Expr) → (b : Bindings) →
    instancesOfAll (ps.drop k) (ns.map uniform) b = instancesOfAll (ps.drop k) ns b
  | [], _, k, ns, b => by
    rw [List.drop_nil]
    cases ns <;> rfl
  | p :: ps, h, k, ns, b => by
    have hps := instancesOfAll_uniform ps fun q hq => h q (List.mem_cons_of_mem _ hq)
    cases k with
    | succ k => exact hps k ns b
    | zero =>
      have hps := hps 0
      rw [List.drop_zero] at hps ⊢
      by_cases hp : ∃ q, p = ellipsis q
      · obtain ⟨q, rfl⟩ := hp
        rw [instancesOfAll, instancesOfAll, suffixes_map, List.flatMap_map]
        simp only [hps]
      · have hne : ∀ q, p ≠ ellipsis q := fun q hq => hp ⟨q, hq⟩
        cases ns with
        | nil => rfl
        | cons n ns =>
          rw [List.map_cons, instancesOfAll_cons hne, instancesOfAll_cons hne,
            instances_uniform p (h p List.mem_cons_self)]
          simp only [hps]
end

end Expr

end JniContracts
