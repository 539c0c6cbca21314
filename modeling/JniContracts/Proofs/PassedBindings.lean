import JniContracts.Proofs.Instances

/-!
Matching under bindings and matching without them. Bindings are asked at every variable of a
pattern, all along the search; still, what is found under them is what is found without them, less
what disagrees with them.
-/

namespace JniContracts

namespace Bindings

variable {v t : String} {b : Bindings}

def add (b : Bindings) (var text : String) : Bindings :=
  if b.Binds var then b else b.insert var text

def union (b r : Bindings) : Bindings := r.entries.foldl (fun b e => b.add e.1 e.2) b

def Agrees (b r : Bindings) : Prop := ∀ v s t, b.get? v = some s → r.get? v = some t → s = t

theorem get?_add (b : Bindings) (v t u : String) :
    (b.add v t).get? u = (b.get? u).or (if u = v then some t else none) := by
  by_cases hb : b.Binds v
  · by_cases hu : u = v
    · obtain ⟨s, hs⟩ := Option.isSome_iff_exists.mp hb
      simp [add, hb, hu, hs]
    · simp [add, hb, hu]
  · have hnone : b.get? v = none := by simpa [Binds] using hb
    by_cases hu : u = v <;> simp [add, hb, hu, hnone]

theorem get?_union (b r : Bindings) (v : String) :
    (b.union r).get? v = (b.get? v).or (r.get? v) := by
  have hfold (l : List (String × String)) (b : Bindings) :
      (l.foldl (fun b e => b.add e.1 e.2) b).get? v = (b.get? v).or (l.lookup v) := by
    induction l generalizing b with
    | nil => simp
    | cons e l ih =>
      obtain ⟨w, t⟩ := e
      rw [List.foldl_cons, ih, get?_add, lookup_cons_ite, Option.or_assoc]
      split <;> rfl
  exact hfold r.entries b

theorem union_assoc (b r s : Bindings) : (b.union r).union s = b.union (r.union s) :=
  ext_get? fun v => by simp only [get?_union, Option.or_assoc]

theorem agrees_union {r s : Bindings} :
    b.Agrees r ∧ (b.union r).Agrees s ↔ r.Agrees s ∧ b.Agrees (r.union s) := by
  simp only [Agrees, get?_union, ← forall_and]
  refine forall_congr' fun v => ?_
  cases b.get? v <;> cases r.get? v <;> cases s.get? v <;> simp
  grind

theorem agrees_empty (b : Bindings) : b.Agrees .empty := by
  intro v s t _ ht
  cases ht

theorem get?_single (v t u : String) :
    (empty.insert v t).get? u = if u = v then some t else none := by
  rw [get?_insert]
  rfl

theorem agrees_single : b.Agrees (empty.insert v t) ↔ ∀ s, b.get? v = some s → s = t := by
  simp only [Agrees, get?_single, Option.ite_none_right_eq_some, Option.some.injEq]
  constructor
  · intro h s hs
    exact h v s t hs ⟨rfl, rfl⟩
  · rintro h u s x hs ⟨rfl, rfl⟩
    exact h s hs

end Bindings

/-- A property of searches for bindings that each step of matching has and that searches made of
such steps keep. -/
structure Compositional (F : (Bindings → List Bindings) → Prop) : Prop where
  none : F fun _ => []
  pure : F fun b => [b]
  bind : ∀ v t, F fun b => (b.bind v t).toList
  seq : ∀ {m m'}, F m → F m' → F fun b => (m b).flatMap m'
  or : ∀ {m m'}, F m → F m' → F fun b => m b ++ m' b

namespace Compositional

variable {F : (Bindings → List Bindings) → Prop} {m m' : Bindings → List Bindings}

theorem congr (h : F m) (hm : ∀ b, m' b = m b) : F m' := by
  rw [show m' = m from funext hm]
  exact h

theorem oneOf (hF : Compositional F) {α : Type} {l : List α} {m : α → Bindings → List Bindings}
    (h : ∀ x ∈ l, F (m x)) : F fun b => l.flatMap (m · b) := by
  induction l with
  | nil => exact hF.none
  | cons x l ih =>
    have hl := ih fun y hy => h y (List.mem_cons_of_mem _ hy)
    exact congr (hF.or (h x List.mem_cons_self) hl) fun b => List.flatMap_cons

theorem bindAll (hF : Compositional F) (found : List (String × List Char)) :
    F fun b => (NamePattern.bindAll found b).toList := by
  induction found with
  | nil => exact hF.pure
  | cons e found ih =>
    obtain ⟨v, x⟩ := e
    refine congr (hF.seq (hF.bind v (String.ofList x)) ih) fun b => ?_
    rw [NamePattern.bindAll]
    cases b.bind v (String.ofList x) <;> simp

theorem matchName (hF : Compositional F) (p t : String) :
    F fun b => (NamePattern.match? p t b).toList := by
  cases hsole : soleVariable? p with
  | some v =>
    by_cases ht : (t == "" || t.toList.contains '\n') = true
    · refine congr hF.none fun b => ?_
      rw [NamePattern.match?_sole hsole, if_pos ht]
      rfl
    · refine congr (hF.bind v t) fun b => ?_
      rw [NamePattern.match?_sole hsole, if_neg ht]
  | none =>
    cases hsolve : NamePattern.solve (Segment.split p) t.toList [] with
    | none => exact congr hF.none fun b => by rw [NamePattern.match?_solve hsole, hsolve]; rfl
    | some found =>
      exact congr (hF.bindAll found) fun b => by rw [NamePattern.match?_solve hsole, hsolve]; rfl

theorem matchOption (hF : Compositional F) (p : String) (t : Option String) :
    F fun b => (NamePattern.matchOption p t b).toList := by
  cases t with
  | none => exact hF.none
  | some t => exact hF.matchName p t

end Compositional

namespace Expr

def Searches (F : (Bindings → List Bindings) → Prop) (p : Expr) : Prop := ∀ n, F (p.instances n)

def SearchesAll (F : (Bindings → List Bindings) → Prop) (ps : List Expr) : Prop :=
  ∀ ns, F (instancesOfAll ps ns)

section Searches

variable {F : (Bindings → List Bindings) → Prop} (hF : Compositional F)

include hF

theorem searches_name (p : String) (q : Pos) : Searches F (name p q) := by
  intro n
  cases hsole : soleVariable? p with
  | some v =>
    exact Compositional.congr (hF.bind v n.strip.render) fun b => by simp [instances, hsole]
  | none =>
    cases hn : n.strip with
    | name t q' =>
      exact Compositional.congr (hF.matchName p t) fun b => by simp [instances, hsole, hn]
    | _ => exact Compositional.congr hF.none fun b => by simp [instances, hsole, hn]

theorem searches_literal (t : String) (k : LiteralKind) (q : Pos) : Searches F (literal t k q) := by
  intro n
  cases hn : n.strip with
  | literal t' k' q' =>
    by_cases ht : t' = t
    · exact Compositional.congr hF.pure fun b => by simp [instances, hn, ht]
    · exact Compositional.congr hF.none fun b => by simp [instances, hn, ht]
  | _ => exact Compositional.congr hF.none fun b => by simp [instances, hn]

theorem searches_verbatim (t : String) (q : Pos) : Searches F (verbatim t q) := by
  intro n
  cases hn : n.strip with
  | verbatim t' q' =>
    by_cases ht : t = t'
    · exact Compositional.congr hF.pure fun b => by simp [instances, hn, ht]
    · exact Compositional.congr hF.none fun b => by simp [instances, hn, ht]
  | _ => exact Compositional.congr hF.none fun b => by simp [instances, hn]

theorem searches_cast {e : Expr} (he : Searches F e) (t : String) (q : Pos) :
    Searches F (cast t e q) := by
  intro n
  cases n with
  | cast t' e' q' =>
    by_cases ht : t = t'
    · exact Compositional.congr (he e') fun b => by simp [instances, ht]
    · exact Compositional.congr hF.none fun b => by simp [instances, ht]
  | _ => exact Compositional.congr hF.none fun b => by simp [instances]

theorem searches_unary {e : Expr} (he : Searches F e) (op : UnOp) (side : Side) (q : Pos) :
    Searches F (unary op e side q) := by
  intro n
  cases hn : n.strip with
  | unary op' e' side' q' =>
    by_cases hop : (op == op' && side == side') = true
    · exact Compositional.congr (he e') fun b => by simp only [instances, hn, hop, if_true]
    · exact Compositional.congr hF.none fun b => by
        simp only [instances, hn, hop, if_false, Bool.false_eq_true]
  | _ => exact Compositional.congr hF.none fun b => by simp [instances, hn]

theorem searches_member {o : Expr} (ho : Searches F o) (attr : String) (arrow : Bool) (q : Pos) :
    Searches F (member o attr arrow q) := by
  intro n
  cases hn : n.strip with
  | member o' attr' arrow' q' =>
    by_cases ha : arrow = arrow'
    · refine Compositional.congr (hF.seq (hF.matchName attr attr') (ho o')) fun b => ?_
      cases hm : NamePattern.match? attr attr' b <;> simp [instances, hn, ha, hm]
    · exact Compositional.congr hF.none fun b => by simp [instances, hn, ha]
  | _ => exact Compositional.congr hF.none fun b => by simp [instances, hn]

theorem searches_index {o i : Expr} (ho : Searches F o) (hi : Searches F i) (q : Pos) :
    Searches F (index o i q) := by
  intro n
  cases hn : n.strip with
  | index o' i' q' =>
    exact Compositional.congr (hF.seq (ho o') (hi i')) fun b => by simp [instances, hn]
  | _ => exact Compositional.congr hF.none fun b => by simp [instances, hn]

theorem searches_assign {t v : Expr} (ht : Searches F t) (hv : Searches F v)
    (op : AssignOp) (q : Pos) : Searches F (assign op t v q) := by
  intro n
  cases hn : n.strip with
  | assign op' t' v' q' =>
    by_cases hop : op = op'
    · exact Compositional.congr (hF.seq (ht t') (hv v')) fun b => by simp [instances, hn, hop]
    · exact Compositional.congr hF.none fun b => by simp [instances, hn, hop]
  | _ => exact Compositional.congr hF.none fun b => by simp [instances, hn]

theorem searches_conditional {c x y : Expr} (hc : Searches F c) (hx : Searches F x)
    (hy : Searches F y) (q : Pos) : Searches F (conditional c x y q) := by
  intro n
  cases hn : n.strip with
  | conditional c' x' y' q' =>
    exact Compositional.congr (hF.seq (hF.seq (hc c') (hx x')) (hy y')) fun b => by
      simp [instances, hn]
  | _ => exact Compositional.congr hF.none fun b => by simp [instances, hn]

theorem searches_binary {l r : Expr} (hl : Searches F l) (hr : Searches F r)
    (op : BinOp) (q : Pos) : Searches F (binary op l r q) := by
  intro n
  cases hn : n.strip with
  | binary op' l' r' q' =>
    by_cases hop : op = op'
    · subst hop
      have hstraight := hF.seq (hl l') (hr r')
      cases heq : op.isEquality with
      | true =>
        exact Compositional.congr (hF.or hstraight (hF.seq (hl r') (hr l'))) fun b => by
          simp [instances, hn, heq]
      | false => exact Compositional.congr hstraight fun b => by simp [instances, hn, heq]
    · exact Compositional.congr hF.none fun b => by simp [instances, hn, hop]
  | _ => exact Compositional.congr hF.none fun b => by simp [instances, hn]

theorem searches_initList {es : List Expr} (he : SearchesAll F es) (q : Pos) :
    Searches F (initList es q) := by
  intro n
  cases hn : n.strip with
  | initList es' q' => exact Compositional.congr (he es') fun b => by simp [instances, hn]
  | _ => exact Compositional.congr hF.none fun b => by simp [instances, hn]

theorem searches_interfaceCall {f : Expr} {args : List Expr} {q : Pos}
    (ha : SearchesAll F (Call.ownArgs ⟨f, args, true, q⟩)) : Searches F (call f args true q) := by
  intro n
  cases hn : n.strip.call? with
  | none => exact Compositional.congr hF.none fun b => by rw [instances]; simp [hn]
  | some c =>
    cases hi : c.viaInterface with
    | false => exact Compositional.congr hF.none fun b => by rw [instances]; simp [hn, hi]
    | true =>
      have hnames := hF.seq (hF.matchOption (f.receiver?.getD "") c.receiver?)
        (hF.matchOption (f.callee?.getD "") c.callee?)
      exact Compositional.congr (hF.seq hnames (ha c.ownArgs))
        fun b => instances_interfaceCall f args q hn hi b

theorem searches_call {f : Expr} {args : List Expr} (hf : Searches F f)
    (ha : SearchesAll F args) (q : Pos) : Searches F (call f args false q) := by
  intro n
  cases hn : n.strip.call? with
  | none => exact Compositional.congr hF.none fun b => by rw [instances]; simp [hn]
  | some c =>
    by_cases hplain : c.viaInterface = false ∨ f.name? = none
    · refine Compositional.congr (hF.seq (hf c.func) (ha c.args)) fun b => ?_
      rw [instances]
      simp only [hn, Bool.false_eq_true, if_false]
      split
      · rename_i hi hp
        simp [hi, hp] at hplain
      · rfl
    · -- A plain name is compared with the callee of an interface call.
      obtain ⟨hi, hne⟩ := not_or.mp hplain
      obtain ⟨p, hp⟩ := Option.ne_none_iff_exists'.mp hne
      have hi : c.viaInterface = true := by simpa using hi
      refine Compositional.congr (hF.seq (hF.matchOption p c.callee?) (ha c.ownArgs)) fun b => ?_
      rw [instances]
      simp only [hn, hi, hp, Bool.false_eq_true, if_false]
      cases NamePattern.matchOption p c.callee? b <;> simp

theorem searchesAll_of_searches {ps : List Expr} (h : ∀ p ∈ ps, Searches F p) :
    SearchesAll F ps := by
  induction ps with
  | nil =>
    intro ns
    cases ns with
    | nil => exact Compositional.congr hF.pure fun b => by rw [instancesOfAll]
    | cons n ns => exact Compositional.congr hF.none fun b => by rw [instancesOfAll]
  | cons p ps ih =>
    intro ns
    have hps : SearchesAll F ps := ih fun p' hp' => h p' (List.mem_cons_of_mem _ hp')
    by_cases hdots : ∃ q, p = ellipsis q
    · obtain ⟨q, rfl⟩ := hdots
      exact Compositional.congr (hF.oneOf fun rest (_ : rest ∈ suffixes ns) => hps rest) fun b => by
        rw [instancesOfAll]
    · cases ns with
      | nil =>
        refine Compositional.congr hF.none fun b => ?_
        rw [instancesOfAll]
        exact fun q hq => hdots ⟨q, hq⟩
      | cons n ns =>
        refine Compositional.congr (hF.seq (h p List.mem_cons_self n) (hps ns)) fun b => ?_
        rw [instancesOfAll]
        exact fun q hq => hdots ⟨q, hq⟩

/-- Matching is made of these steps, whatever the pattern. -/
theorem searches (p : Expr) : Searches F p := by
  induction p using child_induction with
  | step p ih =>
    match p with
    | ellipsis q => exact fun n => Compositional.congr hF.pure fun b => by rw [instances]
    | literal t k q => exact searches_literal hF t k q
    | verbatim t q => exact searches_verbatim hF t q
    | name p q => exact searches_name hF p q
    | cast t e q => exact searches_cast hF (ih e (.head _)) t q
    | unary op e side q => exact searches_unary hF (ih e (.head _)) op side q
    | member o attr arrow q => exact searches_member hF (ih o (.head _)) attr arrow q
    | index o i q => exact searches_index hF (ih o (.head _)) (ih i (.tail _ (.head _))) q
    | binary op l r q => exact searches_binary hF (ih l (.head _)) (ih r (.tail _ (.head _))) op q
    | assign op t v q => exact searches_assign hF (ih t (.head _)) (ih v (.tail _ (.head _))) op q
    | conditional c x y q =>
      exact searches_conditional hF (ih c (.head _)) (ih x (.tail _ (.head _)))
        (ih y (.tail _ (.tail _ (.head _)))) q
    | initList es q => exact searches_initList hF (searchesAll_of_searches hF ih) q
    | call f args true q =>
      have hargs : SearchesAll F (Call.ownArgs ⟨f, args, true, q⟩) :=
        searchesAll_of_searches hF fun e he => ih e (.tail _ (Call.mem_args_of_mem_ownArgs he))
      exact searches_interfaceCall hF hargs
    | call f args false q =>
      exact searches_call hF (ih f (.head _))
        (searchesAll_of_searches hF fun e he => ih e (.tail _ he)) q

end Searches

end Expr

/-- What a search finds under bindings is what it finds without them, as far as that agrees with the
bindings, put together with them. -/
def Filters (search : Bindings → List Bindings) : Prop :=
  ∀ b b', b' ∈ search b ↔ ∃ r ∈ search .empty, b.Agrees r ∧ b' = b.union r

namespace Filters

variable {m m' : Bindings → List Bindings}

theorem pure : Filters fun b => [b] := by
  intro b b'
  rw [List.mem_singleton]
  constructor
  · rintro rfl
    exact ⟨.empty, List.mem_singleton.mpr rfl, b'.agrees_empty, rfl⟩
  · rintro ⟨r, hr, -, rfl⟩
    rw [List.mem_singleton.mp hr]
    rfl

theorem bind (v t : String) : Filters fun b => (b.bind v t).toList := by
  intro b b'
  have hempty : Bindings.empty.bind v t = some (Bindings.empty.insert v t) := rfl
  have hunion : b.union (Bindings.empty.insert v t) = b.add v t := rfl
  simp only [hempty, Option.toList_some, List.mem_singleton, exists_eq_left, hunion,
    Bindings.agrees_single]
  cases hv : b.get? v with
  | none => simp [Bindings.bind, Bindings.add, Bindings.Binds, hv]
  | some s => by_cases hs : s = t <;> simp [Bindings.bind, Bindings.add, Bindings.Binds, hv, hs]

theorem seq (h : Filters m) (h' : Filters m') : Filters fun b => (m b).flatMap m' := by
  intro b b'
  simp only [List.mem_flatMap]
  constructor
  · rintro ⟨b₁, hb₁, hb'⟩
    obtain ⟨r, hr, hagrees, rfl⟩ := (h b b₁).mp hb₁
    obtain ⟨s, hs, hagrees', rfl⟩ := (h' _ b').mp hb'
    obtain ⟨hrs, hbrs⟩ := Bindings.agrees_union.mp ⟨hagrees, hagrees'⟩
    exact ⟨r.union s, ⟨r, hr, (h' r _).mpr ⟨s, hs, hrs, rfl⟩⟩, hbrs, Bindings.union_assoc b r s⟩
  · rintro ⟨u, ⟨r, hr, hu⟩, hagrees, rfl⟩
    obtain ⟨s, hs, hrs, rfl⟩ := (h' r u).mp hu
    obtain ⟨hbr, hbrs⟩ := Bindings.agrees_union.mpr ⟨hrs, hagrees⟩
    exact ⟨b.union r, (h b _).mpr ⟨r, hr, hbr, rfl⟩,
      (h' _ _).mpr ⟨s, hs, hbrs, (Bindings.union_assoc b r s).symm⟩⟩

theorem or (h : Filters m) (h' : Filters m') : Filters fun b => m b ++ m' b := by
  intro b b'
  simp only [List.mem_append, h b b', h' b b']
  grind

theorem compositional : Compositional Filters where
  none := fun b b' => by simp
  pure := pure
  bind := bind
  seq := seq
  or := or

theorem eraseDups (h : Filters m) : Filters fun b => (m b).eraseDups := by
  intro b b'
  simp only [List.mem_eraseDups]
  exact h b b'

end Filters

namespace Patterns

theorem filters_instancesAt (ps : Patterns) (n : Expr) : Filters (ps.instancesAt n) :=
  (Filters.compositional.oneOf
    fun p (_ : p ∈ ps) => Expr.searches Filters.compositional p.expr n).eraseDups

theorem filters_inExprs (ps : Patterns) (es : List Expr) : Filters (ps.inExprs es) := by
  refine Filters.eraseDups (Filters.compositional.oneOf fun e (_ : e ∈ es) => ?_)
  exact Filters.compositional.oneOf fun part (_ : part ∈ e.walk) => ps.filters_instancesAt part

/-- Passing bindings in is the same as filtering afterwards: for matching at a node, anywhere in
expressions, and anywhere in a statement, so in the body of a function. -/
theorem instances_under_bindings (ps : Patterns) :
    (∀ n, Filters (ps.instancesAt n)) ∧ (∀ es, Filters (ps.inExprs es)) ∧
    ∀ s, Filters (ps.inStmt s) :=
  ⟨ps.filters_instancesAt, ps.filters_inExprs, fun s => ps.filters_inExprs s.evaluated⟩

end Patterns

end JniContracts
