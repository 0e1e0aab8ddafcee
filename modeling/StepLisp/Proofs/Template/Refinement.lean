import StepLisp.Proofs.Template.Transition

namespace StepLisp.Machine

open Relation

section Sessions

variable {m₀ m m' : Machine} {s s' : Step × Machine} {σ : List Slot}
variable {idle : Machine → Prop} {busy : Step → Machine → Prop}

theorem Invariant.turns (i : Invariant idle busy) {P : Step × Machine → Prop}
    (h : ReflTransGen (fun s s' => Turn s s' ∧ P s') s s') (hs : busy s.1 s.2) :
    busy s'.1 s'.2 := by
  induction h
  case refl => exact hs
  case tail ht hi =>
    have ha := i.advance hi
    rwa [ht.left.right] at ha

theorem Invariant.expanding (i : Invariant idle busy) {next : Step} (h : Expanding m₀ next m)
    (hs : busy .quasi m₀) : busy next m := by
  obtain ⟨k, m₁, hin, -, ha⟩ := h
  have hb := i.advance <| i.turns hin hs
  rwa [ha] at hb

-- What the expressions that are interpolated in an expansion come to.
def interpolations (m₀ : Machine) : Evaluation := fun held env exp w r =>
  ∃ m, Expanding m₀ .eval m ∧ held ⊆ m.control.kept ∧ m.control.env = env ∧ m.control.exp = exp ∧
    m.world = w ∧ Comes .eval m m.control.cont m.control.stack.slots r

-- They leave alone what is still held of the template.
def Untouched (m₀ : Machine) : Prop :=
  ∀ m v w, Expanding m₀ .eval m → Comes .eval m m.control.cont m.control.stack.slots (.ok v w) →
    ∀ id, ReflTransGen m₀.image.store.Part m₀.control.exp (.pair id) →
      m.image.store.Reachable (m.roots .eval) id.ref →
      w.image.store.object? id.ref = m.image.store.object? id.ref

variable {rest : Reader.Contents (Datum × Nat)} {n : Nat}

theorem interpolations_benign {P : List PairId}
    (hm : Reached (.running rest n .quasi m₀)) (hu : Untouched m₀)
    (hp : ∀ id ∈ P, ReflTransGen m₀.image.store.Part m₀.control.exp (.pair id)) :
    Template.Benign P (interpolations m₀) where
  finishes := by
    rintro held env exp w w' ⟨m, -, -, -, -, -, hc⟩
    exact hc
  keeps := by
    rintro held env exp _ v w' ⟨m, hx, hh, -, -, rfl, hc⟩ -
    have ⟨m', ho, hw, _⟩ := hc
    have hb := whole_invariant.turns ho <| whole_invariant.expanding hx <| whole_invariant.holds hm
    have ⟨_, _, ha, _⟩ := hb
    refine ⟨hw ▸ ha.image.store.sound, fun v' t hv ht hs => hs.of_objects fun id hid o ho => ?_⟩
    rw [hu m v w' hx hc id (hp id (ht hid)) ?_]
    · exact ho
    · exact hs.reachable (fun r hr => .root <| mem_roots_of_kept <| hh <| hv hr) hid

-- What is below a value that the machine holds on to is reached, and is there.
theorem part_reachable {k : Step} {v w : Value} (hm : Reached (.running rest n k m))
    (hv : ∀ r ∈ v.refs, m.image.store.Reachable (m.roots k) r)
    (hw : ReflTransGen m.image.store.Part v w) :
    ∀ r ∈ w.refs, m.image.store.Reachable (m.roots k) r := by
  induction hw
  case refl => exact hv
  case tail hp hi =>
    cases hp
    all_goals
      have hr := hi _ List.mem_cons_self
      have ⟨o, ho, _⟩ := hm.retained hr
      obtain ⟨c, rfl⟩ := Store.exists_cell_of_object? ho
      intro r hr'
      refine hr.of_object? ho ?_
    case car =>
      rw [Store.car_of_object? ho] at hr'
      exact List.mem_append_left _ hr'
    case cdr =>
      rw [Store.cdr_of_object? ho] at hr'
      exact List.mem_append_right _ hr'

theorem stands_of_acyclic (hm : Reached (.running rest n .quasi m))
    (ha : m.image.store.Acyclic m.control.exp) : ∃ t, m.image.store.Stands m.control.exp t ∧
      ∀ id ∈ t.pairs, ReflTransGen m.image.store.Part m.control.exp (.pair id) := by
  have ⟨t, ht⟩ := Store.exists_unfolds ha
  have hp (id : PairId) (hid : id ∈ t.pairs) := ht.part_of_mem hid
  refine ⟨t, .of_unfolds ht fun id hid => ?_, hp⟩
  have hr := part_reachable hm (fun r hr => .root <| mem_roots_of_exp hr) (hp id hid) id.ref
    List.mem_cons_self
  have ⟨o, ho, _⟩ := hm.retained hr
  exact ho ▸ rfl

-- The expansion of any template, wherever the machine is to go on with the result, and whatever is
-- on the stack. The recursion reads the template as it goes along, so it agrees with the machine
-- also on one that is changed in the meantime. A template that is a tree comes to an end, if what
-- is left of it is not changed.
theorem template_refines (m : Machine) (h : ∀ m', Expanding m .eval m' →
      ∃ r, Comes .eval m' m'.control.cont m'.control.stack.slots r) :
    (∀ fuel, ∃ r, Template.expand (interpolations m) fuel m.control.env m.control.kept m.control.exp
        m.world r ∧
      (Comes .quasi m m.control.cont m.control.stack.slots r ∨ ∃ w, r = .error .unfinished w)) ∧
    ∀ rest n, Reached (.running rest n .quasi m) → m.image.store.Acyclic m.control.exp →
      Untouched m → ∃ enough, ∀ fuel ≥ enough, ∃ r,
        Template.expand (interpolations m) fuel m.control.env m.control.kept m.control.exp
          m.world r ∧
        Comes .quasi m m.control.cont m.control.stack.slots r := by
  have hev : Answers m (interpolations m) := by
    intro m' hx
    have ⟨r, hr⟩ := h m' hx
    exact ⟨r, fun held hh => ⟨m', hx, hh, rfl, rfl, rfl, hr⟩, hr⟩
  have hr (fuel : Nat) := expand_expands hev fuel m.control.env m m.control.kept .refl
    (List.suffix_refl _) rfl (List.Subset.refl _)
  refine ⟨hr, fun rest n hm ha hu => ?_⟩
  have ⟨t, ht, hp⟩ := stands_of_acyclic hm ha
  have ⟨_, _, hs, _⟩ := whole_invariant.holds hm
  refine ⟨t.size + 1, fun fuel hf => ?_⟩
  obtain ⟨r, hx, hc | ⟨w, rfl⟩⟩ := hr fuel
  case inl => exact ⟨r, hx, hc⟩
  case inr =>
    refine absurd hx <| Template.expand_finishes (interpolations_benign hm hu hp) ?_ ht
      (List.Subset.refl _) hf w
    exact hs.image.store.sound

-- The states of a run for as long as there is something on top of so many slots.
def statesAbove (depth : Nat) : Nat → Step → Machine → Option (List (Step × Machine))
  | 0, _, _ => none
  | fuel + 1, k, m =>
    match advance k m with
    | .ok k' m' =>
      if depth < m'.control.stack.depth then (statesAbove depth fuel k' m').map ((k, m) :: ·)
      else some [(k, m)]
    | .error .. => some [(k, m)]

theorem mem_statesAbove {fuel : Nat} {k : Step} {l : List (Step × Machine)}
    (h : Inside σ (k, m) s) (hl : statesAbove σ.length fuel k m = some l) : s ∈ l := by
  induction fuel generalizing k m l
  case zero => cases hl
  case succ fuel hi =>
    rw [statesAbove] at hl
    rcases h.cases_head with rfl | ⟨⟨k', m'⟩, ⟨ht, hσ, hn⟩, h'⟩
    case inl =>
      split at hl
      case h_1 =>
        split at hl
        case isTrue =>
          obtain ⟨_, _, rfl⟩ := Option.map_eq_some_iff.mp hl
          exact List.mem_cons_self
        case isFalse =>
          cases hl
          exact List.mem_cons_self
      case h_2 =>
        cases hl
        exact List.mem_cons_self
    case inr =>
      have hlt : σ.length < m'.control.stack.depth := by
        rw [m'.control.stack.depth_eq]
        exact Nat.lt_of_le_of_ne hσ.length_le fun he => hn <| hσ.eq_of_length he
      have ha : advance k m = .ok k' m' := ht.right
      simp only [ha, hlt, if_true] at hl
      obtain ⟨l', hl', rfl⟩ := Option.map_eq_some_iff.mp hl
      exact List.mem_cons_of_mem _ <| hi h' hl'

-- The expression is its own value, and the step that waits for it takes something off the stack.
def isQuiet (m : Machine) : Bool :=
  m.control.exp.isConstant && !m.image.store.isCollectionDue &&
    match advance .eval m with
    | .ok k m' =>
      match advance k m' with
      | .ok _ m'' => m''.control.stack.depth < m.control.stack.depth
      | .error .. => true
    | .error .. => false

theorem eval_of_isConstant (h : m.control.exp.isConstant) :
    eval m = .ok m.control.cont { m with control := { m.control with val := m.control.exp } } := by
  obtain ⟨_, ⟨exp, _⟩, _⟩ := m
  cases exp
  case symbol | pair => cases h
  all_goals rfl

theorem advance_of_isConstant (h : m.control.exp.isConstant)
    (hd : m.image.store.isCollectionDue = false) : ∃ m', advance .eval m = .ok m.control.cont m' ∧
      m'.world = m.world ∧ m'.control = { m.control with val := m.control.exp } := by
  refine ⟨{ m.countStep with control := { m.control with val := m.control.exp } }, ?_, rfl, rfl⟩
  refine advance_of_ok ?_
  rw [collectBefore_of_not_due hd]
  exact eval_of_isConstant h

theorem comes_of_isQuiet (h : isQuiet m) :
    (∃ r, Comes .eval m m.control.cont m.control.stack.slots r) ∧
    ∀ v w, Comes .eval m m.control.cont m.control.stack.slots (.ok v w) → w = m.world := by
  simp only [isQuiet, Bool.and_eq_true, Bool.not_eq_true'] at h
  obtain ⟨⟨hc, hd⟩, hq⟩ := h
  obtain ⟨m₁, ha, hw, hm⟩ := advance_of_isConstant hc hd
  have hs : m₁.control.stack.slots = m.control.stack.slots := by rw [hm]
  constructor
  · have ho : Over m.control.stack.slots (.eval, m) (m.control.cont, m₁) :=
      .single ⟨⟨nofun, ha⟩, hs ▸ List.suffix_refl _⟩
    exact ⟨.ok m.control.exp m₁.world, m₁, ho, rfl, by rw [hm], hs, by rw [hm]⟩
  · rintro v _ ⟨m', ho, rfl, -⟩
    rcases ho.cases_head with he | ⟨⟨k, m₂⟩, ⟨ht, -⟩, ho⟩
    case inl => rw [(Prod.mk.inj he).right]
    case inr =>
      cases ha.symm.trans ht.right
      rcases ho.cases_head with he | ⟨⟨k, m₃⟩, ⟨ht, hσ⟩, -⟩
      case inl =>
        rw [← (Prod.mk.inj he).right]
        exact hw
      case inr =>
        -- Nothing that comes later is on top of the same stack.
        have ht : advance m.control.cont m₂ = .ok k m₃ := ht.right
        simp only [ha, ht, decide_eq_true_eq, Stack.depth_eq] at hq
        exact absurd hσ.length_le (Nat.not_le_of_lt hq)

-- A list with a nested one and with expressions to be interpolated.
def sampleTemplate : String :=
  "(quasiquote (1 ((unquote 2)) (unquote-splicing ())))"

def interpolates (m : Machine) : Bool :=
  match (Stage.reading (Reader.walk sampleTemplate.toList) m).next.next.next with
  | .running _ _ .quasi m =>
    m.image.store.isTree 12 m.control.exp &&
      match statesAbove m.control.stack.slots.length 20 .quasi m with
      | some states => states.all fun (k, m) =>
        match advance k m with
        | .ok .eval m' => !k.expands || isQuiet m'
        | _ => true
      | none => false
  | _ => false

theorem template_refines_interpolated : ∃ rest n m fuel r, Reached (.running rest n .quasi m) ∧
    Template.expand (interpolations m) fuel m.control.env m.control.kept m.control.exp m.world r ∧
    Comes .quasi m m.control.cont m.control.stack.slots r := by
  obtain ⟨m, hb, ht⟩ := exists_bare_of {} default {} interpolates (by decide +kernel)
  unfold interpolates at ht
  split at ht <;> try exact absurd ht Bool.false_ne_true
  case h_1 rest n m₁ hA =>
    have h₀ : Reached (.reading (Reader.walk sampleTemplate.toList) m) :=
      reached_request (.bare hb) _
    have hr : Reached (.running rest n .quasi m₁) := hA ▸ h₀.next.next.next
    rw [Bool.and_eq_true] at ht
    obtain ⟨htree, ht⟩ := ht
    split at ht <;> try exact absurd ht Bool.false_ne_true
    case h_1 states hl =>
      have hq (m' : Machine) (hx : Expanding m₁ .eval m') : isQuiet m' := by
        obtain ⟨k, m₂, hi, hk, ha⟩ := hx
        have h := List.all_eq_true.mp ht _ (mem_statesAbove hi hl)
        simpa only [ha, hk, Bool.not_true, Bool.false_or] using h
      have ⟨t, hu⟩ := Store.exists_unfolds_of_isTree htree
      have hx (m' : Machine) (hx : Expanding m₁ .eval m') := comes_of_isQuiet (hq m' hx)
      have hu' : Untouched m₁ := by
        intro m' v w hm' hc _ _ _
        rw [(hx m' hm').right v w hc]
        rfl
      have ⟨enough, hf⟩ := (template_refines m₁ fun m' hm' => (hx m' hm').left).right rest n hr
        hu.acyclic hu'
      have ⟨r, hx, hc⟩ := hf enough (Nat.le_refl _)
      exact ⟨rest, n, m₁, enough, r, hr, hx, hc⟩

-- A list that is marked, but has two operands.
def marksTwo (m : Machine) : Bool :=
  match (Stage.reading (Reader.walk "(quasiquote (unquote 1 2))".toList) m).next.next.next with
  | .running _ _ .quasi m =>
    match m.image.store.uncons? m.control.exp with
    | some (.symbol x, operands) =>
      x = .unquote && (m.image.store.toList? operands matches some [_, _]) &&
        match step .quasi (m.countStep.collectBefore .quasi) with
        | .error (.malformed (.notSingle text)) _ => text = "(1 2)"
        | _ => false
    | _ => false
  | _ => false

-- It is not expanded like other lists.
theorem malformed_of_two : ∃ rest n m operands items text m', Reached (.running rest n .quasi m) ∧
    m.image.store.uncons? m.control.exp = some (.symbol .unquote, operands) ∧
    m.image.store.toList? operands = some items ∧ items.length = 2 ∧
    step .quasi (m.countStep.collectBefore .quasi) = .error (.malformed (.notSingle text)) m' ∧
    text = "(1 2)" := by
  obtain ⟨m, hb, ht⟩ := exists_bare_of {} default {} marksTwo (by decide +kernel)
  unfold marksTwo at ht
  split at ht <;> try exact absurd ht Bool.false_ne_true
  case h_1 rest n m₁ hA =>
    have h₀ : Reached (.reading (Reader.walk "(quasiquote (unquote 1 2))".toList) m) :=
      reached_request (.bare hb) _
    split at ht <;> try exact absurd ht Bool.false_ne_true
    case h_1 x operands hu =>
      simp only [Bool.and_eq_true, decide_eq_true_eq] at ht
      obtain ⟨⟨rfl, hl⟩, ht⟩ := ht
      split at hl <;> try exact absurd hl Bool.false_ne_true
      case h_1 hi =>
        split at ht <;> try exact absurd ht Bool.false_ne_true
        case h_1 text m' hs =>
          exact ⟨rest, n, m₁, operands, _, text, m', hA ▸ h₀.next.next.next, hu, hi, rfl, hs,
            of_decide_eq_true ht⟩

end Sessions

end StepLisp.Machine
