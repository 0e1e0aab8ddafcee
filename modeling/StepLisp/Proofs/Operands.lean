import StepLisp.Proofs.Body

namespace StepLisp

open Machine Relation

theorem Store.Finds.keeps {s s' : Store} {held : List Ref} {e : FrameId} {u v : Value}
    (h : s.Finds e u v)
    (he : s.Refers held e.ref) (hk : s.Keeps held s') : s'.Finds e u v := by
  cases u
  case pair => exact h.elim
  case symbol => exact Store.Sees.keeps h he hk
  all_goals exact h

-- The place of an operator that takes more than one step.
def Place.operator (p : Place) (args : Value) : Place :=
  { p with cont := .evalOperator, slots := .value args :: .env p.env :: .step p.cont :: p.slots }

theorem Place.operator_above {p : Place} {args : Value} : (p.operator args).Above p :=
  .of_slots [.value args] rfl rfl

namespace Machine

variable {m m' m₁ : Machine} {p : Place} {f u v args rest : Value} {es us vs ws : List Value}
variable {ids : List PairId} {i : PairId} {next : Step} {s : Step × Machine}

theorem Placed.operator {held : List Ref} {i j : PairId} {h level : Nat} (hg : m.Going .eval)
    (hm : m.Placed p) (hheld : ∀ r ∈ held, m.image.store.Refers (m.roots .eval) r)
    (he : m.control.exp = .pair i) (ho : m.image.store.object? i.ref = some (.cell ⟨.pair j, args⟩))
    (hh : p.slots.length + 3 ≤ h) : Passes level held p.slots 0 h .eval m .eval fun m' =>
      m'.Placed (p.operator args) ∧ m'.control.exp = .pair j := by
  refine (hg.steps nofun fun m₁ hc => ?_).passes hheld nofun
    fun m' hm' => hm'.left.slots ▸ Place.operator_above.slots
  have hm₁ := hc.placed hm
  have hexp₁ : m₁.control.exp = .pair i := hc.control ▸ he
  have hi : m.image.store.Refers (m.roots .eval) i.ref := .root <|
    mem_roots_of_control (by simp [Control.roots, he, Value.refs])
  have ho₁ := hc.keeps.object? hi ho
  let c := ((m₁.control.pushed (.step m₁.control.cont)).pushed (.env m₁.control.env)).pushed
    (.value args)
  refine ⟨{ m₁ with control := { c with exp := .pair j, cont := .evalOperator } }, ?_,
    ⟨.refl hc.keeps.sound, rfl, ?_⟩, ⟨hm₁.global, hm₁.env, rfl, ?_⟩, rfl⟩
  · show eval m₁ = _
    have hcar : m₁.image.store.car i = .pair j := Store.car_of_object? ho₁
    have hcdr : m₁.image.store.cdr i = args := Store.cdr_of_object? ho₁
    rw [eval, get_bind_eq, hexp₁]
    simp only [query, Bind.bind, EStateM.bind, hcar, hcdr]
    rfl
  · have hd := hm₁.slots ▸ m₁.control.stack.depth_eq
    simp only [c, Control.pushed, Stack.push]
    omega
  · simp [c, Control.pushed, Stack.push, hm₁.env, hm₁.cont, hm₁.slots, Place.operator]

-- The operands of a call of `f` are being evaluated: some have come to values, the others are left.
inductive Operands (f : Value) (p : Place) : List Value → List Value → Step × Machine → Prop
  | first {args : Value} {es : List Value} {ids : List PairId} {m : Machine} :
    m.With f (p.operator args) → m.image.store.Row args ids es .nil → Ordinary m.image.store f →
    Operands f p [] es (.evalOperator, m)
  | more {v rest : Value} {vs es : List Value} {ids : List PairId} {m : Machine} :
    m.With v (p.operand f vs rest) → m.image.store.Row rest ids es .nil →
    Operands f p (vs ++ [v]) es (.evalOperand, m)

namespace Operands

theorem held_subset_roots (ho : Operands f p vs es s) : p.held ⊆ s.2.roots s.1 := by
  cases ho
  case first hm _ _ => exact fun r hr => hm.mem_roots rfl (Place.operator_above.held hr)
  case more hm _ => exact hm.held_subset_roots

theorem suffix (ho : Operands f p vs es s) : p.slots <:+ s.2.control.stack.slots := by
  cases ho
  case first hm _ _ => exact hm.slots ▸ Place.operator_above.slots
  case more hm _ => exact hm.slots ▸ Place.operand_above.slots

-- The list of operands is taken up where it was left.
theorem exists_gathering (ho : Operands f p vs es (next, m)) (hc : Cleared next m m₁) :
    ∃ args ids m₂, step next m₁ = operands args m₂ ∧ Goes 0 (p.slots.length + vs.length + 4) m₁ m₂ ∧
      m₂.image = m₁.image ∧ m₂.Gathering f vs p ∧ m₁.image.store.Row args ids es .nil := by
  have hs := hc.keeps.sound
  cases ho
  case first args ids hm hf hr =>
    have hf₁ := hf.keeps (Store.holds_of_subset hm.val_subset_roots) hc.keeps
    have hr₁ := hr.keeps (Store.holds_of_subset fun r hr => hm.mem_roots rfl <|
      Place.refs_subset_waiting (v := args) (by simp [Place.operator]) hr) hc.keeps
    have hm₁ := hc.value hm
    obtain ⟨m₂, he, hg, hi, hm₂⟩ :=
      evalOperator_of_ordinary (p := p) hm₁.global hm₁.val hm₁.slots hs hf₁
    exact ⟨args, ids, m₂, he, hg, hi, hm₂, hr₁⟩
  case more v rest vs ids hm hr =>
    have hr₁ := hr.keeps (Store.holds_of_subset fun r hr => hm.mem_roots rfl <|
      Place.refs_subset_waiting (v := rest) (by simp [Place.operand]) hr) hc.keeps
    obtain ⟨m₂, he, hg, hi, hm₂⟩ := evalOperand_of_with (hc.value hm) hs
    refine ⟨rest, ids, m₂, he, hg.mono ?_, hi, hm₂, hr₁⟩
    rw [List.length_append, List.length_singleton]
    omega

-- What could be found on the spot still can.
theorem finds (ho : Operands f p vs es (next, m)) (hc : Cleared next m m₁)
    (hw : List.Forall₂ (m.image.store.Finds p.env) us ws) :
    List.Forall₂ (m₁.image.store.Finds p.env) us ws := by
  have henv : m.image.store.Refers (m.roots next) p.env.ref :=
    .root <| ho.held_subset_roots List.mem_cons_self
  exact hw.imp fun _ _ h => h.keeps henv hc.keeps

-- What is left is found on the spot.
theorem apply (ho : Operands f p vs us (next, m)) (hg : m.Going next) (hn : next ≠ .halt)
    (hw : List.Forall₂ (m.image.store.Finds p.env) us ws)
    (hr : vs.length + ws.length ≤ m.image.store.room) :
    Steps next m (vs.length + ws.length) (p.slots.length + (vs.length + ws.length) + 4) (.apply f)
      (ToApply (vs ++ ws) p) := by
  refine hg.steps hn fun m₁ hc => ?_
  obtain ⟨args, ids, m₂, he, hg₂, hi, hm₂, hrow⟩ := ho.exists_gathering hc
  have hw₁ := ho.finds hc hw
  have hroom := hc.room
  have ⟨m', hop, hg', hm'⟩ := hm₂.apply hg₂.gains.sound (hi ▸ hrow) (hi ▸ hw₁) (by rw [hi]; omega)
  have hall := (hg₂.mono (by omega)).trans hg'
  rw [Nat.zero_add] at hall
  exact ⟨m', he.trans hop, hall, hm'⟩

-- The next operand but those that are found on the spot is evaluated.
theorem suspend (ho : Operands f p vs (us ++ .pair i :: es) (next, m)) (hg : m.Going next)
    (hn : next ≠ .halt) (hw : List.Forall₂ (m.image.store.Finds p.env) us ws) :
    Steps next m 0 (p.slots.length + (vs.length + ws.length) + 6) .eval fun m' => ∃ rest ids,
      m'.Placed (p.operand f (vs ++ ws) rest) ∧ m'.control.exp = .pair i ∧
      m'.image.store.Row rest ids es .nil := by
  refine hg.steps hn fun m₁ hc => ?_
  obtain ⟨args, ids, m₂, he, hg₂, hi, hm₂, hrow⟩ := ho.exists_gathering hc
  have hw₁ := ho.finds hc hw
  have hle := hrow.length_le
  rw [List.length_append] at hle
  obtain ⟨is, js, u, hus, hes⟩ := hrow.split
  cases hes
  case cons j rest js hj hes =>
    obtain ⟨m', hop, hg', hi', hm', hexp⟩ := hm₂.suspend hg₂.gains.sound (hi ▸ hus) (hi ▸ hj)
      (by rw [hi]; omega) (hi ▸ hw₁)
    refine ⟨m', he.trans hop, (hg₂.mono (by omega)).trans hg', rest, js, hm', hexp, ?_⟩
    rw [hi', hi]
    exact hes

end Operands

-- Runs

-- The values so far, the operands that are left, and the state of the machine.
abbrev Progress := List Value × List Value × Step × Machine

-- So one operand after the other comes to a value.
inductive Gathers (f : Value) (p : Place) : Progress → Progress → Prop
  | intro {vs us ws es : List Value} {i : PairId} {rest : Value} {s : Step × Machine}
    {m m' : Machine} :
    Operands f p vs (us ++ .pair i :: es) s → List.Forall₂ (s.2.image.store.Finds p.env) us ws →
    Quiet s (.eval, m) → m.Placed (p.operand f (vs ++ ws) rest) → m.control.exp = .pair i →
    Yields .evalOperand m m' →
    Operands f p (vs ++ ws ++ [m'.control.val]) es (.evalOperand, m') →
    Gathers f p (vs, us ++ .pair i :: es, s) (vs ++ ws ++ [m'.control.val], es, (.evalOperand, m'))

-- When it is their turn, names have a meaning and other expressions come to a value, which leaves
-- the list of the operands that follow alone. At the end there is room for the arguments.
structure Prompt (f : Value) (p : Place) (t : Progress) : Prop where
  finds : ∀ vs us es s, ReflTransGen (Gathers f p) t (vs, us ++ es, s) →
    (∀ u ∈ us, u.isPair = false) → ∃ ws, List.Forall₂ (s.2.image.store.Finds p.env) us ws
  yields : ∀ vs ws us i es rest ids s m, ReflTransGen (Gathers f p) t (vs, us ++ .pair i :: es, s) →
    Quiet s (.eval, m) → m.Placed (p.operand f ws rest) → m.control.exp = .pair i →
    m.image.store.Row rest ids es .nil →
    ∃ m', Yields .evalOperand m m' ∧ m'.image.store.Row rest ids es .nil
  room : ∀ vs us s, ReflTransGen (Gathers f p) t (vs, us, s) → (∀ u ∈ us, u.isPair = false) →
    vs.length + us.length ≤ s.2.image.store.room

theorem Placed.suffix {q : Place} (hm : m.Placed q) (ha : q.Above p) :
    p.slots <:+ m.control.stack.slots :=
  hm.slots ▸ ha.slots

theorem Gathers.toOver {t t' : Progress} (hn : ReflTransGen (Gathers f p) t t') :
    Over p.slots t.2.2 t'.2.2 := by
  induction hn
  case refl => exact .refl
  case tail hn hi =>
    obtain ⟨-, -, hq, hm, -, hy, -⟩ := hn
    have hs := hm.suffix Place.operand_above
    exact (hi.tail ⟨hq.turn, hs⟩).trans (hy.toOver.mono hs)

theorem Prompt.head {t t' : Progress} (hr : Prompt f p t) (hn : Gathers f p t t') :
    Prompt f p t' where
  finds _ _ _ _ h := hr.finds _ _ _ _ (.head hn h)
  yields _ _ _ _ _ _ _ _ _ h := hr.yields _ _ _ _ _ _ _ _ _ (.head hn h)
  room _ _ _ h := hr.room _ _ _ (.head hn h)

-- All operands have come to values.
structure Gathered (f : Value) (p : Place) (t : Progress) (vs : List Value) (m : Machine) :
    Prop where
  exists_last : ∃ us ws rest s, vs = us ++ ws ∧ ReflTransGen (Gathers f p) t (us, rest, s) ∧
    List.Forall₂ (s.2.image.store.Finds p.env) rest ws ∧ Quiet s (.apply f, m)
  toApply : m.ToApply vs p
  going : m.Going (.apply f)
  toOver : Over p.slots t.2.2 (.apply f, m)

theorem Gathered.head {t t' : Progress} (hd : Gathered f p t' vs m) (hn : Gathers f p t t') :
    Gathered f p t vs m where
  exists_last := by
    obtain ⟨us, ws, rest, s, hvs, hrun, hws, hq⟩ := hd.exists_last
    exact ⟨us, ws, rest, s, hvs, .head hn hrun, hws, hq⟩
  toApply := hd.toApply
  going := hd.going
  toOver := (Gathers.toOver (.single hn)).trans hd.toOver

-- The operands up to the first one that is not found on the spot.
theorem exists_atoms (es : List Value) : ∃ us tail, es = us ++ tail ∧ (∀ u ∈ us, u.isPair = false) ∧
    (tail = [] ∨ ∃ i es', tail = .pair i :: es') := by
  induction es
  case nil => exact ⟨[], [], rfl, List.forall_mem_nil _, .inl rfl⟩
  case cons e es hi =>
    by_cases he : e.isPair
    case pos =>
      obtain ⟨i, rfl⟩ : ∃ i, e = .pair i := by cases e <;> first | exact ⟨_, rfl⟩ | cases he
      exact ⟨[], _, rfl, List.forall_mem_nil _, .inr ⟨i, es, rfl⟩⟩
    case neg =>
      obtain ⟨us, tail, rfl, hus, htail⟩ := hi
      exact ⟨e :: us, tail, rfl, List.forall_mem_cons.mpr ⟨Bool.eq_false_iff.mpr he, hus⟩, htail⟩

theorem Operands.ne_halt (ho : Operands f p vs es (next, m)) : next ≠ .halt := by
  cases ho <;> exact nofun

-- By induction on the number of operands that are left.
theorem Operands.exists_gathered (ho : Operands f p vs es s) (hg : s.2.Going s.1)
    (hr : Prompt f p (vs, es, s)) : ∃ us m, Gathered f p (vs, es, s) us m := by
  induction hn : es.length using Nat.strong_induction_on generalizing vs es s
  case h n hi =>
    subst hn
    obtain ⟨us, tail, hsplit, hus, htail⟩ := exists_atoms es
    subst hsplit
    have ⟨ws, hws⟩ := hr.finds vs us tail s .refl hus
    rcases htail with rfl | ⟨i, es, rfl⟩
    · rw [List.append_nil] at ho hr ⊢
      have hroom := hr.room vs us s .refl hus
      rw [hws.length_eq] at hroom
      obtain ⟨m, hq, -, hg', hm⟩ := ho.apply hg ho.ne_halt hws hroom
      refine ⟨vs ++ ws, m, ⟨vs, ws, us, s, rfl, .refl, hws, hq⟩, hm, hg', .single ⟨hq.turn, ?_⟩⟩
      exact hm.slots ▸ List.suffix_refl _
    · obtain ⟨m, hq, -, hg₁, rest, ids, hm, hexp, hrow⟩ := ho.suspend hg ho.ne_halt hws
      have ⟨m', hy, hrow'⟩ := hr.yields vs _ us i es rest ids s m .refl hq hm hexp hrow
      have hg₂ : m'.Going .evalOperand := hg₁.of_over hy.toOver
      have hw : m'.With m'.control.val (p.operand f (vs ++ ws) rest) :=
        ⟨(hg₁.global_eq_of_over hy.toOver).trans hm.global, rfl, hy.slots.trans hm.slots⟩
      have ho' : Operands f p (vs ++ ws ++ [m'.control.val]) es (.evalOperand, m') := .more hw hrow'
      have hn : Gathers f p (vs, us ++ .pair i :: es, s)
          (vs ++ ws ++ [m'.control.val], es, (.evalOperand, m')) :=
        .intro ho hws hq hm hexp hy ho'
      have hlt : es.length < (us ++ .pair i :: es).length := by simp; omega
      have ⟨vs', m'', hd⟩ := hi _ hlt ho' hg₂ (hr.head hn) rfl
      exact ⟨vs', m'', hd.head hn⟩

-- Operands that are no pairs need no evaluation.

theorem eq_of_gathers {t : Progress} (he : ∀ e ∈ es, e.isPair = false)
    (h : ReflTransGen (Gathers f p) (vs, es, s) t) : t = (vs, es, s) := by
  rcases h.cases_head with rfl | ⟨t', ht, -⟩
  · rfl
  · cases ht
    case intro i _ _ _ _ _ _ _ _ _ _ =>
      have := he (.pair i) (by simp)
      cases this

theorem prompt_of_atoms {ws : List Value} (he : ∀ e ∈ es, e.isPair = false)
    (hf : List.Forall₂ (s.2.image.store.Finds p.env) es ws)
    (hr : vs.length + es.length ≤ s.2.image.store.room) : Prompt f p (vs, es, s) where
  finds _ us es' _ h _ := by
    cases eq_of_gathers he h
    exact ⟨_, (List.forall₂_take_append ws us es' hf.flip).flip⟩
  yields _ _ _ i _ _ _ _ _ h := by
    cases eq_of_gathers he h
    have := he (.pair i) (by simp)
    cases this
  room _ _ _ h _ := by
    cases eq_of_gathers he h
    exact hr

theorem Gathered.exists_found {us : List Value} (hd : Gathered f p (vs, es, s) us m)
    (he : ∀ e ∈ es, e.isPair = false) :
    ∃ ws, us = vs ++ ws ∧ List.Forall₂ (s.2.image.store.Finds p.env) es ws := by
  obtain ⟨us, ws, rest, s, rfl, h, hws, -⟩ := hd.exists_last
  cases eq_of_gathers he h
  exact ⟨ws, rfl, hws⟩

end Machine
end StepLisp
