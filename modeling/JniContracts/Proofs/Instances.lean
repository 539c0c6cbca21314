import JniContracts.Pattern.Instances
import JniContracts.Proofs.NamePattern
import Mathlib.Data.List.Infix

/-!
Matching finds the instances of a pattern and nothing else. When an expression is an instance of a
pattern under given bindings is told by rules that search for nothing; the bindings that matching
comes to are the least ones under which the rules hold.
-/

namespace JniContracts

theorem Call.mem_args_of_mem_ownArgs {c : Call} {e : Expr} (h : e ∈ c.ownArgs) : e ∈ c.args := by
  rw [ownArgs] at h
  split at h
  · exact List.mem_of_mem_drop h
  · exact h

namespace Expr

theorem sizeOf_child {c e : Expr} (h : c ∈ e.children) : sizeOf c < sizeOf e := by
  cases e with
  | call f args via p =>
    simp only [call.sizeOf_spec]
    rcases List.mem_cons.mp h with rfl | h
    · omega
    · have hlt := List.sizeOf_lt_of_mem h
      omega
  | initList es p =>
    have hlt : sizeOf c < sizeOf es := List.sizeOf_lt_of_mem h
    simp only [initList.sizeOf_spec]
    omega
  | name | literal | ellipsis | verbatim => exact absurd h List.not_mem_nil
  | _ =>
    simp only [children, List.mem_cons, List.not_mem_nil, or_false] at h
    simp only [member.sizeOf_spec, index.sizeOf_spec, unary.sizeOf_spec, binary.sizeOf_spec,
      conditional.sizeOf_spec, assign.sizeOf_spec, cast.sizeOf_spec]
    grind

/-- What holds of an expression if it holds of its parts holds of all expressions. -/
theorem child_induction {motive : Expr → Prop} (step : ∀ e, (∀ c ∈ e.children, motive c) → motive e)
    (e : Expr) : motive e :=
  step e fun c _ => child_induction step c
termination_by sizeOf e
decreasing_by exact sizeOf_child ‹_›

mutual
def identifiers : Expr → List String
  | name p _ => [p]
  | call f args viaInterface _ =>
    let ids := identifiersOfAll args
    if viaInterface then
      f.receiver?.getD "" :: f.callee?.getD "" ::
          (if f.tablePointer?.isSome then ids.drop 1 else ids).flatten
    else f.identifiers ++ ids.flatten
  | member o attr _ _ => attr :: o.identifiers
  | index o i _ => o.identifiers ++ i.identifiers
  | unary _ e _ _ => e.identifiers
  | binary _ l r _ => l.identifiers ++ r.identifiers
  | conditional c x y _ => c.identifiers ++ x.identifiers ++ y.identifiers
  | assign _ t v _ => t.identifiers ++ v.identifiers
  | cast _ e _ => e.identifiers
  | initList es _ => (identifiersOfAll es).flatten
  | literal .. | ellipsis _ | verbatim .. => []

def identifiersOfAll : List Expr → List (List String)
  | [] => []
  | e :: es => e.identifiers :: identifiersOfAll es
end

mutual
/-- An expression is an instance of a pattern under bindings of its metavariables. -/
inductive IsInstance (s : Bindings) : Expr → Expr → Prop where
  | dots {q n} : IsInstance s (ellipsis q) n
  | metavariable {p v q n} (hp : soleVariable? p = some v) (hv : s.get? v = some n.strip.render) :
      IsInstance s (name p q) n
  | name {p q n t q'} (hp : soleVariable? p = none) (hn : n.strip = name t q')
      (ht : NamePattern.Instance s p t) : IsInstance s (name p q) n
  | interfaceCall {f args q n c r k} (hn : n.strip.call? = some c) (hi : c.viaInterface = true)
      (hr : c.receiver? = some r) (hk : c.callee? = some k)
      (ir : NamePattern.Instance s (f.receiver?.getD "") r)
        (ik : NamePattern.Instance s (f.callee?.getD "") k)
      (ha : AreInstances s (Call.ownArgs ⟨f, args, true, q⟩) c.ownArgs) :
      IsInstance s (call f args true q) n
  /-- A call of a plain name has the interface calls of that name among its instances. -/
  | namedCall {p q' args q n c k} (hn : n.strip.call? = some c) (hi : c.viaInterface = true)
      (hk : c.callee? = some k) (ik : NamePattern.Instance s p k)
        (ha : AreInstances s args c.ownArgs) :
      IsInstance s (call (name p q') args false q) n
  | call {f args q n c} (hn : n.strip.call? = some c)
      (hplain : c.viaInterface = false ∨ f.name? = none) (hf : IsInstance s f c.func)
      (ha : AreInstances s args c.args) : IsInstance s (call f args false q) n
  | literal {t k q n k' q'} (hn : n.strip = literal t k' q') : IsInstance s (literal t k q) n
  | member {o attr arrow q n o' attr' q'} (hn : n.strip = member o' attr' arrow q')
      (ha : NamePattern.Instance s attr attr') (ho : IsInstance s o o') :
      IsInstance s (member o attr arrow q) n
  | index {o i q n o' i' q'} (hn : n.strip = index o' i' q') (ho : IsInstance s o o')
      (hi : IsInstance s i i') : IsInstance s (index o i q) n
  | unary {op e side q n e' q'} (hn : n.strip = unary op e' side q') (he : IsInstance s e e') :
      IsInstance s (unary op e side q) n
  | binary {op l r q n l' r' q'} (hn : n.strip = binary op l' r' q') (hl : IsInstance s l l')
      (hr : IsInstance s r r') : IsInstance s (binary op l r q) n
  | swapped {op l r q n l' r' q'} (hop : op.isEquality = true) (hn : n.strip = binary op l' r' q')
      (hl : IsInstance s l r') (hr : IsInstance s r l') : IsInstance s (binary op l r q) n
  | conditional {c x y q n c' x' y' q'} (hn : n.strip = conditional c' x' y' q')
      (hc : IsInstance s c c') (hx : IsInstance s x x') (hy : IsInstance s y y') :
      IsInstance s (conditional c x y q) n
  | assign {op t v q n t' v' q'} (hn : n.strip = assign op t' v' q') (ht : IsInstance s t t')
      (hv : IsInstance s v v') : IsInstance s (assign op t v q) n
  /-- Casts are looked at only by a cast. -/
  | cast {t e q e' q'} (he : IsInstance s e e') : IsInstance s (cast t e q) (cast t e' q')
  | initList {es q n es' q'} (hn : n.strip = initList es' q') (he : AreInstances s es es') :
      IsInstance s (initList es q) n
  | verbatim {t q n q'} (hn : n.strip = verbatim t q') : IsInstance s (verbatim t q) n

/-- Expressions are in order instances of patterns, where three dots stand for any run of them. -/
inductive AreInstances (s : Bindings) : List Expr → List Expr → Prop where
  | nil : AreInstances s [] []
  | dots {q ps ns} (run : List Expr) (h : AreInstances s ps ns) :
      AreInstances s (ellipsis q :: ps) (run ++ ns)
  | cons {p ps n ns} (h : IsInstance s p n) (hs : AreInstances s ps ns) :
      AreInstances s (p :: ps) (n :: ns)
end

def unknowns (p : Expr) : List String := p.identifiers.flatMap metavariables

def unknownsOfAll (ps : List Expr) : List String :=
  (identifiersOfAll ps).flatten.flatMap metavariables

end Expr

/-- A search extends bindings: what it finds has values for these variables and makes a property
hold, and whenever the property can hold it finds bindings for it. -/
structure Finds (search : Bindings → List Bindings) (vs : List String)
  (P : Bindings → Prop) : Prop where
  mono : ∀ {s s'}, s ≤ s' → P s → P s'
  sound : ∀ {b b'}, b' ∈ search b → b.Adds vs b' ∧ P b'
  complete : ∀ {b s}, b ≤ s → P s → ∃ b' ∈ search b, b' ≤ s

namespace Finds

variable {m m' : Bindings → List Bindings} {vs ws : List String} {P Q : Bindings → Prop}

theorem congr (h : Finds m vs P) (hm : ∀ b, m' b = m b) (hv : ws = vs) (hP : ∀ s, Q s ↔ P s) :
    Finds m' ws Q := by
  have hm' : m' = m := funext hm
  have hQ : Q = P := funext fun s => propext (hP s)
  rw [hm', hv, hQ]
  exact h

theorem none (hm : ∀ b, m b = []) (hP : ∀ s, ¬ P s) : Finds m vs P where
  mono _ h := absurd h (hP _)
  sound h := by simp [hm] at h
  complete _ h := absurd h (hP _)

theorem pure : Finds (fun b => [b]) [] fun _ => True where
  mono _ h := h
  sound h := by
    rw [List.mem_singleton.mp h]
    exact ⟨.refl _, trivial⟩
  complete hle _ := ⟨_, List.mem_singleton.mpr rfl, hle⟩

theorem seq (h : Finds m vs P) (h' : Finds m' ws Q) :
    Finds (fun b => (m b).flatMap m') (vs ++ ws) fun s => P s ∧ Q s where
  mono hle hs := ⟨h.mono hle hs.1, h'.mono hle hs.2⟩
  sound hb := by
    obtain ⟨b₁, hb₁, hb'⟩ := List.mem_flatMap.mp hb
    obtain ⟨hadds, hP⟩ := h.sound hb₁
    obtain ⟨hadds', hQ⟩ := h'.sound hb'
    exact ⟨hadds.trans hadds', h.mono hadds'.le hP, hQ⟩
  complete hle hs := by
    obtain ⟨b₁, hb₁, hle₁⟩ := h.complete hle hs.1
    obtain ⟨b', hb', hle'⟩ := h'.complete hle₁ hs.2
    exact ⟨b', List.mem_flatMap.mpr ⟨b₁, hb₁, hb'⟩, hle'⟩

theorem or (h : Finds m vs P) (h' : Finds m' vs Q) :
    Finds (fun b => m b ++ m' b) vs fun s => P s ∨ Q s where
  mono hle hs := hs.imp (h.mono hle) (h'.mono hle)
  sound hb := by
    rcases List.mem_append.mp hb with hb | hb
    · obtain ⟨hadds, hP⟩ := h.sound hb
      exact ⟨hadds, .inl hP⟩
    · obtain ⟨hadds, hQ⟩ := h'.sound hb
      exact ⟨hadds, .inr hQ⟩
  complete hle hs := by
    rcases hs with hP | hQ
    · obtain ⟨b', hb', hle'⟩ := h.complete hle hP
      exact ⟨b', List.mem_append_left _ hb', hle'⟩
    · obtain ⟨b', hb', hle'⟩ := h'.complete hle hQ
      exact ⟨b', List.mem_append_right _ hb', hle'⟩

theorem oneOf {α : Type} {l : List α} {m : α → Bindings → List Bindings} {P : α → Bindings → Prop}
    (h : ∀ x ∈ l, Finds (m x) vs (P x)) :
    Finds (fun b => l.flatMap (m · b)) vs fun s => ∃ x ∈ l, P x s where
  mono hle := fun ⟨x, hx, hs⟩ => ⟨x, hx, (h x hx).mono hle hs⟩
  sound hb := by
    obtain ⟨x, hx, hb⟩ := List.mem_flatMap.mp hb
    obtain ⟨hadds, hP⟩ := (h x hx).sound hb
    exact ⟨hadds, x, hx, hP⟩
  complete hle := fun ⟨x, hx, hs⟩ => by
    obtain ⟨b', hb', hle'⟩ := (h x hx).complete hle hs
    exact ⟨b', List.mem_flatMap.mpr ⟨x, hx, hb'⟩, hle'⟩

theorem bind (v t : String) :
    Finds (fun b => (b.bind v t).toList) [v] fun s => s.get? v = some t where
  mono hle h := hle v t h
  sound hb := Bindings.adds_of_bind (Option.mem_toList.mp hb)
  complete hle h := by
    obtain ⟨b', hb', hle'⟩ := Bindings.exists_bind hle h
    exact ⟨b', Option.mem_toList.mpr hb', hle'⟩

theorem matchOption {p : String} (hp : (metavariables p).length ≤ 1) (t : Option String) :
    Finds (fun b => (NamePattern.matchOption p t b).toList) (metavariables p)
      fun s => ∃ x, t = some x ∧ NamePattern.Instance s p x where
  mono hle := fun ⟨x, hx, hs⟩ => ⟨x, hx, hs.mono hle⟩
  sound hb := by
    obtain ⟨x, hx, hb⟩ := Option.bind_eq_some_iff.mp (Option.mem_toList.mp hb)
    obtain ⟨hadds, hi⟩ := NamePattern.match?_sound hp hb
    exact ⟨hadds, x, hx, hi⟩
  complete hle := fun ⟨x, hx, hs⟩ => by
    obtain ⟨b', hb', hle'⟩ := NamePattern.match?_complete hp hle hs
    exact ⟨b', Option.mem_toList.mpr (Option.bind_eq_some_iff.mpr ⟨x, hx, hb'⟩), hle'⟩

end Finds

namespace Expr

def Exact (p : Expr) : Prop := ∀ n, Finds (p.instances n) p.unknowns fun s => IsInstance s p n

def ExactAll (ps : List Expr) : Prop :=
  ∀ ns, Finds (instancesOfAll ps ns) (unknownsOfAll ps) fun s => AreInstances s ps ns

attribute [local simp] instances

theorem exact_ellipsis (q : Pos) : Exact (ellipsis q) := fun _ =>
  Finds.pure.congr (fun _ => rfl) rfl fun _ => ⟨fun _ => trivial, fun _ => .dots⟩

theorem exact_name {p : String} (hp : (metavariables p).length ≤ 1) (q : Pos) :
    Exact (name p q) := by
  intro n
  have hvars : (name p q).unknowns = metavariables p := List.flatMap_singleton ..
  cases hsole : soleVariable? p with
  | some v =>
    refine (Finds.bind v n.strip.render).congr (fun b => ?_) ?_ fun s => ?_
    · simp [hsole]
    · rw [hvars, NamePattern.metavariables_of_sole hsole]
    · refine ⟨fun h => ?_, .metavariable hsole⟩
      cases h with
      | metavariable hp hv =>
        rw [hsole] at hp
        cases hp
        exact hv
      | name hp => simp [hsole] at hp
  | none =>
    cases hn : n.strip with
    | name t q' =>
      refine (Finds.matchOption hp (some t)).congr (fun b => ?_) hvars fun s => ?_
      · simp [hsole, hn, NamePattern.matchOption]
      · constructor
        · intro h
          cases h with
          | metavariable hp => simp [hsole] at hp
          | name _ hn' ht =>
            rw [hn] at hn'
            cases hn'
            exact ⟨t, rfl, ht⟩
        · rintro ⟨_, ⟨⟩, ht⟩
          exact .name hsole hn ht
    | _ =>
      refine Finds.none (fun b => by simp [hsole, hn]) fun s h => ?_
      cases h with
      | metavariable hp => simp [hsole] at hp
      | name _ hn' => simp [hn] at hn'

theorem exact_literal (t : String) (k : LiteralKind) (q : Pos) : Exact (literal t k q) := by
  intro n
  cases hn : n.strip with
  | literal t' k' q' =>
    by_cases ht : t' = t
    · subst ht
      exact Finds.pure.congr
        (fun b => by simp [hn]) rfl fun _ => ⟨fun _ => trivial, fun _ => .literal hn⟩
    · refine Finds.none (fun b => by simp [hn, ht]) fun s h => ?_
      cases h with
      | literal hn' =>
        rw [hn] at hn'
        cases hn'
        exact ht rfl
  | _ =>
    refine Finds.none (fun b => by simp [hn]) fun s h => ?_
    cases h with
    | literal hn' => simp [hn] at hn'

theorem exact_verbatim (t : String) (q : Pos) : Exact (verbatim t q) := by
  intro n
  cases hn : n.strip with
  | verbatim t' q' =>
    by_cases ht : t = t'
    · subst ht
      exact Finds.pure.congr
        (fun b => by simp [hn]) rfl fun _ => ⟨fun _ => trivial, fun _ => .verbatim hn⟩
    · refine Finds.none (fun b => by simp [hn, ht]) fun s h => ?_
      cases h with
      | verbatim hn' =>
        rw [hn] at hn'
        cases hn'
        exact ht rfl
  | _ =>
    refine Finds.none (fun b => by simp [hn]) fun s h => ?_
    cases h with
    | verbatim hn' => simp [hn] at hn'

theorem exact_cast {e : Expr} (he : Exact e) (t : String) (q : Pos) : Exact (cast t e q) := by
  intro n
  cases n with
  | cast t' e' q' =>
    by_cases ht : t = t'
    · subst ht
      refine (he e').congr (fun b => by simp) rfl fun s => ⟨fun h => ?_, .cast⟩
      cases h with
      | cast h => exact h
    · refine Finds.none (fun b => by simp [ht]) fun s h => ?_
      cases h with
      | cast => exact ht rfl
  | _ =>
    refine Finds.none (fun b => by simp) fun s h => ?_
    cases h

theorem exact_unary {e : Expr} (he : Exact e) (op : UnOp) (side : Side) (q : Pos) :
    Exact (unary op e side q) := by
  intro n
  cases hn : n.strip with
  | unary op' e' side' q' =>
    by_cases hop : op = op' ∧ side = side'
    · obtain ⟨rfl, rfl⟩ := hop
      refine (he e').congr (fun b => by simp [hn]) rfl fun s => ⟨fun h => ?_, .unary hn⟩
      cases h with
      | unary hn' h =>
        rw [hn] at hn'
        cases hn'
        exact h
    · have hne : (op == op' && side == side') = false := by
        simpa [Bool.and_eq_false_imp, not_and] using hop
      refine Finds.none (fun b => by simp [hn, hne]) fun s h => ?_
      cases h with
      | unary hn' =>
        rw [hn] at hn'
        cases hn'
        exact hop ⟨rfl, rfl⟩
  | _ =>
    refine Finds.none (fun b => by simp [hn]) fun s h => ?_
    cases h with
    | unary hn' => simp [hn] at hn'

theorem exact_member {o : Expr} {attr : String} (hattr : (metavariables attr).length ≤ 1)
    (ho : Exact o) (arrow : Bool) (q : Pos) : Exact (member o attr arrow q) := by
  intro n
  cases hn : n.strip with
  | member o' attr' arrow' q' =>
    by_cases ha : arrow = arrow'
    · subst ha
      refine ((Finds.matchOption hattr (some attr')).seq (ho o')).congr (fun b => ?_) ?_ fun s => ?_
      · cases hm : NamePattern.match? attr attr' b <;> simp [hn, NamePattern.matchOption, hm]
      · exact List.flatMap_cons
      · constructor
        · intro h
          cases h with
          | member hn' ha ho =>
            rw [hn] at hn'
            cases hn'
            exact ⟨⟨_, rfl, ha⟩, ho⟩
        · rintro ⟨⟨_, ⟨⟩, ha⟩, ho⟩
          exact .member hn ha ho
    · refine Finds.none (fun b => by simp [hn, ha]) fun s h => ?_
      cases h with
      | member hn' =>
        rw [hn] at hn'
        cases hn'
        exact ha rfl
  | _ =>
    refine Finds.none (fun b => by simp [hn]) fun s h => ?_
    cases h with
    | member hn' => simp [hn] at hn'

theorem exact_index {o i : Expr} (ho : Exact o) (hi : Exact i) (q : Pos) : Exact (index o i q) := by
  intro n
  cases hn : n.strip with
  | index o' i' q' =>
    refine ((ho o').seq (hi i')).congr (fun b => by simp [hn]) ?_
      fun s => ⟨fun h => ?_, fun h => ?_⟩
    · exact List.flatMap_append
    · cases h with
      | index hn' ho hi =>
        rw [hn] at hn'
        cases hn'
        exact ⟨ho, hi⟩
    · exact .index hn h.1 h.2
  | _ =>
    refine Finds.none (fun b => by simp [hn]) fun s h => ?_
    cases h with
    | index hn' => simp [hn] at hn'

theorem exact_assign {t v : Expr} (ht : Exact t) (hv : Exact v) (op : AssignOp) (q : Pos) :
    Exact (assign op t v q) := by
  intro n
  cases hn : n.strip with
  | assign op' t' v' q' =>
    by_cases hop : op = op'
    · subst hop
      refine ((ht t').seq (hv v')).congr (fun b => by simp [hn]) ?_
        fun s => ⟨fun h => ?_, fun h => ?_⟩
      · exact List.flatMap_append
      · cases h with
        | assign hn' ht hv =>
          rw [hn] at hn'
          cases hn'
          exact ⟨ht, hv⟩
      · exact .assign hn h.1 h.2
    · refine Finds.none (fun b => by simp [hn, hop]) fun s h => ?_
      cases h with
      | assign hn' =>
        rw [hn] at hn'
        cases hn'
        exact hop rfl
  | _ =>
    refine Finds.none (fun b => by simp [hn]) fun s h => ?_
    cases h with
    | assign hn' => simp [hn] at hn'

theorem exact_conditional {c x y : Expr} (hc : Exact c) (hx : Exact x) (hy : Exact y) (q : Pos) :
    Exact (conditional c x y q) := by
  intro n
  cases hn : n.strip with
  | conditional c' x' y' q' =>
    refine (((hc c').seq (hx x')).seq (hy y')).congr (fun b => by simp [hn]) ?_
      fun s => ⟨fun h => ?_, fun h => ?_⟩
    · exact List.flatMap_append.trans (congrArg (· ++ y.unknowns) List.flatMap_append)
    · cases h with
      | conditional hn' hc hx hy =>
        rw [hn] at hn'
        cases hn'
        exact ⟨⟨hc, hx⟩, hy⟩
    · exact .conditional hn h.1.1 h.1.2 h.2
  | _ =>
    refine Finds.none (fun b => by simp [hn]) fun s h => ?_
    cases h with
    | conditional hn' => simp [hn] at hn'

theorem exact_binary {l r : Expr} (hl : Exact l) (hr : Exact r) (op : BinOp) (q : Pos) :
    Exact (binary op l r q) := by
  intro n
  have hvars : (binary op l r q).unknowns = l.unknowns ++ r.unknowns := List.flatMap_append
  cases hn : n.strip with
  | binary op' l' r' q' =>
    by_cases hop : op = op'
    · subst hop
      cases heq : op.isEquality with
      | true =>
        refine (((hl l').seq (hr r')).or ((hl r').seq (hr l'))).congr (fun b => by simp [hn, heq])
          hvars fun s => ⟨fun h => ?_, fun h => ?_⟩
        · cases h with
          | binary hn' hl hr =>
            rw [hn] at hn'
            cases hn'
            exact .inl ⟨hl, hr⟩
          | swapped _ hn' hl hr =>
            rw [hn] at hn'
            cases hn'
            exact .inr ⟨hl, hr⟩
        · rcases h with ⟨hl, hr⟩ | ⟨hl, hr⟩
          · exact .binary hn hl hr
          · exact .swapped heq hn hl hr
      | false =>
        refine ((hl l').seq (hr r')).congr (fun b => by simp [hn, heq]) hvars
          fun s => ⟨fun h => ?_, fun h => .binary hn h.1 h.2⟩
        cases h with
        | binary hn' hl hr =>
          rw [hn] at hn'
          cases hn'
          exact ⟨hl, hr⟩
        | swapped heq' => simp [heq] at heq'
    · refine Finds.none (fun b => by simp [hn, hop]) fun s h => ?_
      cases h with
      | binary hn' | swapped _ hn' =>
        rw [hn] at hn'
        cases hn'
        exact hop rfl
  | _ =>
    refine Finds.none (fun b => by simp [hn]) fun s h => ?_
    cases h with
    | binary hn' | swapped _ hn' => simp [hn] at hn'

theorem exact_initList {es : List Expr} (he : ExactAll es) (q : Pos) : Exact (initList es q) := by
  intro n
  cases hn : n.strip with
  | initList es' q' =>
    refine (he es').congr (fun b => by simp [hn]) ?_ fun s => ⟨fun h => ?_, .initList hn⟩
    · rfl
    · cases h with
      | initList hn' he =>
        rw [hn] at hn'
        cases hn'
        exact he
  | _ =>
    refine Finds.none (fun b => by simp [hn]) fun s h => ?_
    cases h with
    | initList hn' => simp [hn] at hn'

theorem identifiers_interfaceCall (f : Expr) (args : List Expr) (q : Pos) :
    (call f args true q).identifiers = f.receiver?.getD "" :: f.callee?.getD "" ::
      (identifiersOfAll (Call.ownArgs ⟨f, args, true, q⟩)).flatten := by
  cases hp : f.tablePointer?.isSome <;> cases args <;>
    simp [identifiers, identifiersOfAll, Call.ownArgs, hp]

theorem instances_interfaceCall (f : Expr) (args : List Expr) (q : Pos) {n : Expr} {c : Call}
    (hn : n.strip.call? = some c) (hi : c.viaInterface = true) (b : Bindings) :
    (call f args true q).instances n b =
      ((NamePattern.matchOption (f.receiver?.getD "") c.receiver? b).toList.flatMap fun b =>
        (NamePattern.matchOption (f.callee?.getD "") c.callee? b).toList).flatMap
          (instancesOfAll (Call.ownArgs ⟨f, args, true, q⟩) c.ownArgs) := by
  rw [instances]
  simp only [hn, hi, if_true]
  cases NamePattern.matchOption (f.receiver?.getD "") c.receiver? b with
  | none => rfl
  | some b₁ =>
    cases hb : NamePattern.matchOption (f.callee?.getD "") c.callee? b₁ with
    | none => simp [hb]
    | some b₂ =>
      cases hp : f.tablePointer?.isSome <;> cases args <;> simp [hb, Call.ownArgs, hp]

/-- Interface calls match by receiver, callee and own arguments. -/
theorem exact_interfaceCall {f : Expr} {args : List Expr} {q : Pos}
    (hr : (metavariables (f.receiver?.getD "")).length ≤ 1)
    (hk : (metavariables (f.callee?.getD "")).length ≤ 1)
    (ha : ExactAll (Call.ownArgs ⟨f, args, true, q⟩)) : Exact (call f args true q) := by
  intro n
  cases hn : n.strip.call? with
  | none =>
    refine Finds.none (fun b => by rw [instances]; simp [hn]) fun s h => ?_
    cases h with
    | interfaceCall hn' => simp [hn] at hn'
  | some c =>
    cases hi : c.viaInterface with
    | false =>
      refine Finds.none (fun b => by rw [instances]; simp [hn, hi]) fun s h => ?_
      cases h with
      | interfaceCall hn' hi' =>
        rw [hn] at hn'
        cases hn'
        simp [hi] at hi'
    | true =>
      refine (((Finds.matchOption hr c.receiver?).seq (Finds.matchOption hk c.callee?)).seq
        (ha c.ownArgs)).congr (fun b => ?_) ?_ fun s => ?_
      · exact instances_interfaceCall f args q hn hi b
      · simp [unknowns, unknownsOfAll, identifiers_interfaceCall]
      · constructor
        · intro h
          cases h with
          | interfaceCall hn' hi' hr hk ir ik ha =>
            rw [hn] at hn'
            cases hn'
            exact ⟨⟨⟨_, hr, ir⟩, ⟨_, hk, ik⟩⟩, ha⟩
        · rintro ⟨⟨⟨r, hr, ir⟩, ⟨k, hk, ik⟩⟩, ha⟩
          exact .interfaceCall hn hi hr hk ir ik ha

/-- Other calls match by function and arguments; a plain name also matches the callee of an
interface call. -/
theorem exact_call {f : Expr} {args : List Expr} (hf : Exact f)
    (hname : ∀ p q', f = name p q' → (metavariables p).length ≤ 1) (ha : ExactAll args) (q : Pos) :
    Exact (call f args false q) := by
  intro n
  have hvars : (call f args false q).unknowns = f.unknowns ++ unknownsOfAll args :=
    List.flatMap_append
  cases hn : n.strip.call? with
  | none =>
    refine Finds.none (fun b => by rw [instances]; simp [hn]) fun s h => ?_
    cases h with
    | namedCall hn' | call hn' => simp [hn] at hn'
  | some c =>
    by_cases hplain : c.viaInterface = false ∨ f.name? = none
    · refine ((hf c.func).seq (ha c.args)).congr (fun b => ?_) hvars
        fun s => ⟨fun h => ?_, fun h => ?_⟩
      · rw [instances]
        simp only [hn, Bool.false_eq_true, if_false]
        split
        · rename_i hi hp
          simp [hi, hp] at hplain
        · rfl
      · cases h with
        | namedCall hn' hi' =>
          rw [hn] at hn'
          cases hn'
          simp [hi', name?] at hplain
        | call hn' _ hf ha =>
          rw [hn] at hn'
          cases hn'
          exact ⟨hf, ha⟩
      · exact .call hn hplain h.1 h.2
    · obtain ⟨hi, hne⟩ := not_or.mp hplain
      obtain ⟨p, q', rfl⟩ : ∃ p q', f = name p q' := by
        cases f <;> simp [name?] at hne
        exact ⟨_, _, rfl⟩
      have hi : c.viaInterface = true := by simpa using hi
      refine ((Finds.matchOption (hname p q' rfl) c.callee?).seq (ha c.ownArgs)).congr
        (fun b => ?_) ?_ fun s => ?_
      · rw [instances]
        simp only [hn, hi, name?, Bool.false_eq_true, if_false]
        cases hm : NamePattern.matchOption p c.callee? b <;> simp
      · rw [hvars]
        exact congrArg (· ++ unknownsOfAll args) (List.flatMap_singleton ..)
      · constructor
        · intro h
          cases h with
          | namedCall hn' _ hk ik ha =>
            rw [hn] at hn'
            cases hn'
            exact ⟨⟨_, hk, ik⟩, ha⟩
          | call hn' hplain' =>
            rw [hn] at hn'
            cases hn'
            exact absurd hplain' hplain
        · rintro ⟨⟨k, hk, ik⟩, ha⟩
          exact .namedCall hn hi hk ik ha

theorem mem_suffixes {α : Type} {l rest : List α} : rest ∈ suffixes l ↔ rest <:+ l := by
  induction l with
  | nil => simp [suffixes]
  | cons a l ih => rw [suffixes, List.mem_cons, ih, List.suffix_cons_iff]

theorem exactAll_nil : ExactAll [] := by
  intro ns
  cases ns with
  | nil =>
    exact Finds.pure.congr (fun b => by simp [instancesOfAll]) rfl fun _ => ⟨fun _ => trivial,
      fun _ => .nil⟩
  | cons n ns =>
    refine Finds.none (fun b => by simp [instancesOfAll]) fun s h => ?_
    cases h

theorem exactAll_dots {ps : List Expr} (hps : ExactAll ps) (q : Pos) :
    ExactAll (ellipsis q :: ps) := by
  intro ns
  refine (Finds.oneOf fun rest (_ : rest ∈ suffixes ns) => hps rest).congr
    (fun b => ?_) ?_ fun s => ?_
  · simp [instancesOfAll]
  · simp [unknownsOfAll, identifiersOfAll, identifiers]
  · constructor
    · intro h
      cases h with
      | dots run h => exact ⟨_, mem_suffixes.mpr (List.suffix_append ..), h⟩
      | @cons _ _ n ns _ hs => exact ⟨ns, mem_suffixes.mpr (List.suffix_cons ..), hs⟩
    · rintro ⟨rest, hrest, h⟩
      obtain ⟨run, rfl⟩ := mem_suffixes.mp hrest
      exact .dots run h

theorem exactAll_cons {p : Expr} {ps : List Expr} (hdots : ∀ q, p ≠ ellipsis q) (hp : Exact p)
    (hps : ExactAll ps) : ExactAll (p :: ps) := by
  intro ns
  cases ns with
  | nil =>
    refine Finds.none (fun b => ?_) fun s h => ?_
    · rw [instancesOfAll]
      exact fun q hq => hdots q hq
    · generalize hns : [] = ns at h
      cases h with
      | dots => exact hdots _ rfl
      | cons => cases hns
  | cons n ns =>
    refine ((hp n).seq (hps ns)).congr (fun b => ?_) ?_
      fun s => ⟨fun h => ?_, fun h => .cons h.1 h.2⟩
    · rw [instancesOfAll]
      exact fun q hq => hdots q hq
    · simp [unknowns, unknownsOfAll, identifiersOfAll]
    · generalize hns : n :: ns = ms at h
      cases h with
      | dots => exact absurd rfl (hdots _)
      | cons h hs =>
        cases hns
        exact ⟨h, hs⟩

theorem exactAll_of_exact {ps : List Expr} (h : ∀ p ∈ ps, Exact p) : ExactAll ps := by
  induction ps with
  | nil => exact exactAll_nil
  | cons p ps ih =>
    have hps : ExactAll ps := ih fun p' hp' => h p' (List.mem_cons_of_mem _ hp')
    by_cases hdots : ∃ q, p = ellipsis q
    · obtain ⟨q, rfl⟩ := hdots
      exact exactAll_dots hps q
    · exact exactAll_cons (not_exists.mp hdots) (h p (List.mem_cons_self ..)) hps

def SingleVariables (names : List String) : Prop := ∀ x ∈ names, (metavariables x).length ≤ 1

instance (names : List String) : Decidable (SingleVariables names) :=
  inferInstanceAs (Decidable (∀ _ ∈ _, _))

theorem SingleVariables.append {xs ys : List String} (h : SingleVariables (xs ++ ys)) :
    SingleVariables xs ∧ SingleVariables ys :=
  List.forall_mem_append.mp h

theorem SingleVariables.of_mem {es : List Expr} (h : SingleVariables (identifiersOfAll es).flatten)
    {e : Expr} (he : e ∈ es) : SingleVariables e.identifiers := by
  induction es with
  | nil => cases he
  | cons e' es ih =>
    rw [identifiersOfAll, List.flatten_cons] at h
    obtain ⟨h₁, h₂⟩ := h.append
    rcases List.mem_cons.mp he with rfl | he
    · exact h₁
    · exact ih h₂ he

theorem exact_of_singleVariables (p : Expr) (h : SingleVariables p.identifiers) : Exact p := by
  induction p using child_induction with
  | step p ih =>
    match p with
    | ellipsis q => exact exact_ellipsis q
    | literal t k q => exact exact_literal t k q
    | verbatim t q => exact exact_verbatim t q
    | name p q => exact exact_name (h p (by simp [identifiers])) q
    | cast t e q =>
      rw [identifiers] at h
      exact exact_cast (ih e (.head _) h) t q
    | unary op e side q =>
      rw [identifiers] at h
      exact exact_unary (ih e (.head _) h) op side q
    | member o attr arrow q =>
      rw [identifiers] at h
      obtain ⟨hattr, ho⟩ := List.forall_mem_cons.mp h
      exact exact_member hattr (ih o (.head _) ho) arrow q
    | index o i q =>
      rw [identifiers] at h
      obtain ⟨ho, hi⟩ := h.append
      exact exact_index (ih o (.head _) ho) (ih i (.tail _ (.head _)) hi) q
    | binary op l r q =>
      rw [identifiers] at h
      obtain ⟨hl, hr⟩ := h.append
      exact exact_binary (ih l (.head _) hl) (ih r (.tail _ (.head _)) hr) op q
    | assign op t v q =>
      rw [identifiers] at h
      obtain ⟨ht, hv⟩ := h.append
      exact exact_assign (ih t (.head _) ht) (ih v (.tail _ (.head _)) hv) op q
    | conditional c x y q =>
      rw [identifiers] at h
      obtain ⟨hcx, hy⟩ := h.append
      obtain ⟨hc, hx⟩ := hcx.append
      exact exact_conditional (ih c (.head _) hc) (ih x (.tail _ (.head _)) hx)
        (ih y (.tail _ (.tail _ (.head _))) hy) q
    | initList es q =>
      rw [identifiers] at h
      exact exact_initList (exactAll_of_exact fun e he => ih e he (h.of_mem he)) q
    | call f args true q =>
      rw [identifiers_interfaceCall] at h
      obtain ⟨hr, h⟩ := List.forall_mem_cons.mp h
      obtain ⟨hk, ha⟩ := List.forall_mem_cons.mp h
      exact exact_interfaceCall hr hk (exactAll_of_exact fun e he =>
        ih e (.tail _ (Call.mem_args_of_mem_ownArgs he)) (SingleVariables.of_mem ha he))
    | call f args false q =>
      rw [identifiers] at h
      obtain ⟨hf, ha⟩ := h.append
      refine exact_call (ih f (.head _) hf) (fun p q' hp => ?_)
        (exactAll_of_exact fun e he => ih e (.tail _ he) (SingleVariables.of_mem ha he)) q
      subst hp
      exact hf p (by simp [identifiers])

end Expr

namespace Patterns

open Expr

theorem mem_instancesAt {ps : Patterns} {n : Expr} {b₀ b : Bindings} :
    b ∈ ps.instancesAt n b₀ ↔ ∃ p ∈ ps, b ∈ p.expr.instances n b₀ := by
  rw [instancesAt, List.mem_eraseDups, List.mem_flatMap]

/-- Matching at a node finds exactly the instances of the patterns. What it finds extends the
bindings at the start by values for the metavariables of one of the patterns and makes the node an
instance of it. Of all bindings that extend those at the start and make the node an instance of one
of the patterns, it finds the part that the pattern needs. -/
theorem instancesAt_exact {ps : Patterns} (hps : ∀ p ∈ ps, SingleVariables p.expr.identifiers)
    (n : Expr) (b₀ : Bindings) :
    (∀ b ∈ ps.instancesAt n b₀, ∃ p ∈ ps, b₀ ≤ b ∧
      (∀ v, b.Binds v ↔ b₀.Binds v ∨ v ∈ p.expr.unknowns) ∧ IsInstance b p.expr n) ∧
    ∀ p ∈ ps, ∀ s, b₀ ≤ s → IsInstance s p.expr n →
      ∃ b ∈ ps.instancesAt n b₀, ∀ v,
        b.get? v = if b₀.Binds v ∨ v ∈ p.expr.unknowns then s.get? v else none := by
  constructor
  · intro b hb
    obtain ⟨p, hp, hb⟩ := mem_instancesAt.mp hb
    obtain ⟨hadds, hinst⟩ := (exact_of_singleVariables p.expr (hps p hp) n).sound hb
    exact ⟨p, hp, hadds.le, hadds.binds, hinst⟩
  · intro p hp s hle hs
    have hexact := exact_of_singleVariables p.expr (hps p hp) n
    obtain ⟨b, hb, hbs⟩ := hexact.complete hle hs
    refine ⟨b, mem_instancesAt.mpr ⟨p, hp, hb⟩, fun v => ?_⟩
    rw [← (hexact.sound hb).1.get?_eq hbs]

/-- `$X == Get$TYPEField($X, ...)` -/
def fieldTest : Pattern :=
  ⟨"$X == Get$TYPEField($X, ...)", .binary .eq (.name "$X" ⟨1, 1⟩)
    (.call (.name "Get$TYPEField" ⟨1, 7⟩) [.name "$X" ⟨1, 21⟩, .ellipsis ⟨1, 25⟩] false ⟨1, 7⟩)
    ⟨1, 1⟩⟩

/-- `env->GetIntField(x, 1, 2) == (int)x` -/
def fieldTested : Expr :=
  .binary .eq (.call (.member (.name "env" ⟨7, 1⟩) "GetIntField" true ⟨7, 1⟩)
    [.name "x" ⟨7, 18⟩, .literal "1" .number ⟨7, 21⟩, .literal "2" .number ⟨7, 24⟩] true ⟨7, 1⟩)
    (.cast "int" (.name "x" ⟨7, 35⟩) ⟨7, 30⟩) ⟨7, 1⟩

theorem instancesAt_exact_fieldTested : SingleVariables fieldTest.expr.identifiers ∧
    IsInstance (.ofList [("TYPE", "Int"), ("X", "x")]) fieldTest.expr fieldTested := by
  have hsingle : ∀ p ∈ [fieldTest], SingleVariables p.expr.identifiers := by decide +kernel
  obtain ⟨p, hp, -, -, hinst⟩ := (instancesAt_exact hsingle fieldTested .empty).1
    (.ofList [("TYPE", "Int"), ("X", "x")]) (by decide +kernel)
  rw [List.mem_singleton.mp hp] at hinst
  exact ⟨hsingle fieldTest (List.mem_singleton.mpr rfl), hinst⟩

end Patterns

end JniContracts
