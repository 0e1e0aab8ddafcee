import StepLisp.Proofs.Template.Outcome

namespace StepLisp

open Act
open Slot (values)

namespace Machine

open Direct (within)
open Possibly (pause)

section Transitions

variable {m₀ m : Machine} {k : Step} {σ τ : List Slot} {e : FrameId} {held : List Ref}

theorem checkpoints_values {vs : List Value} :
    StepLisp.checkpoints (values vs ++ σ) = StepLisp.checkpoints σ := by
  induction vs
  case nil => rfl
  case cons hi => exact hi

theorem gather_settles {unexpected : Slot → Internal} {n : Nat} {vs : List Value} {list : Value}
    {f : Value → Run Step} {f' : Value → Possibly Value}
    (hm : m.control.stack.slots = values vs ++ .sentinel :: τ) (he : m.control.env = e)
    (hn : vs.length < n) (hc : StepLisp.checkpoints τ = StepLisp.checkpoints σ)
    (h : ∀ list m', m'.control = { m.control with stack := .ofSlots τ } →
      Settles m₀ (f list m') k σ m'.world (f' list)) :
    Settles m₀ ((gather unexpected n list >>= f) m) k σ m.world
      (liftM (within e (Store.consAll vs list)) >>= f') := by
  induction vs generalizing n list m
  all_goals
    obtain _ | n := n
    · cases hn
    rw [gather, bind_assoc, onControl_bind_eq (Control.pop_eq hm)]
  case nil => exact .liftM_bind rfl <| h list _ rfl
  case cons v vs hi =>
    rw [liftM_consAll, within_bind_eq cons_plain, Possibly.liftM_bind, bind_assoc, bind_assoc]
    -- A cell may be missing for any of the values, when some of them are off the stack.
    have hv : StepLisp.checkpoints (values vs ++ .sentinel :: τ) = StepLisp.checkpoints σ :=
      checkpoints_values.trans hc
    refine .within_bind cons_plain he hv fun list m' hm' => ?_
    refine hi ?_ ?_ (Nat.lt_of_succ_lt_succ hn) fun list m'' h' => ?_
    · rw [hm']
      rfl
    · rw [hm']
      exact he
    · exact h list m'' (by rw [h', hm'])

theorem mem_refs_values {vs : List Value} {r : Ref} :
    r ∈ (values vs).flatMap Slot.refs ↔ r ∈ vs.flatMap Value.refs := by
  simp [values, List.flatMap_map, Slot.refs]

theorem finish_realizes {vs : List Value}
    (hi : Inside m₀.control.stack.slots (.quasi, m₀) (.quasiFinish, m))
    (hm : m.control.stack.slots = values vs.reverse ++ .sentinel :: .env e :: .step k :: σ)
    (he : m.control.env = e) (hh : held ⊆ List.flatMap Slot.refs (.env e :: .step k :: σ)) :
    Realizes .quasiFinish m k σ (do
      pause (vs.flatMap Value.refs ++ held)
      within e (Store.list vs)) := by
  refine .of_settles rfl hi (fun r hr => mem_roots_of_slots ?_) fun m' hm' => ?_
  · rw [hm, List.flatMap_append, List.mem_append, mem_refs_values]
    rcases List.mem_append.mp hr with hr | hr
    · exact .inl <| by simpa using hr
    · exact .inr <| hh hr
  · rw [← bind_pure (liftM _)]
    rw [← hm'] at hm he
    refine gather_settles hm he ?_ rfl fun list m'' h'' => ?_
    · rw [m'.control.stack.depth_eq, hm]
      simp [values]
    · rw [onControl_bind_eq (Control.restore_eq (by rw [h'']; rfl))]
      exact .deliver rfl rfl

theorem rewrap_settles (hm : m.control.stack.slots = .env e :: .step k :: σ) :
    Settles m₀ (rewrap m) k σ m.world
      (liftM (within e (Store.list [.symbol .quasiquote, m.control.val]))) := by
  rw [rewrap, onControl_bind_eq (Control.restore_eq hm), val_bind_eq]
  rw [show Store.list [.symbol .quasiquote, m.control.val] =
    Store.consAll [m.control.val, .symbol .quasiquote] .nil from rfl]
  rw [liftM_consAll, within_bind_eq cons_plain, Possibly.liftM_bind]
  refine .within_bind cons_plain rfl rfl fun inner m' h' => ?_
  rw [liftM_consAll, within_bind_eq cons_plain, Possibly.liftM_bind]
  refine .within_bind cons_plain ?_ ?_ fun list m'' h'' => ?_
  · rw [h']
  · rw [checkpoints, h']
    rfl
  · refine .deliver ?_ ?_ <;> rw [h'', h']
    rfl

end Transitions

section Elements

variable {m₀ m : Machine} {k c : Step} {σ τ : List Slot} {e e' : FrameId} {held : List Ref}
variable {rest element exp : Value} {vs : List Value} {ev : Evaluation}
variable {ex : List Ref → Value → Possibly Value} {f : List Value → Possibly Value}

-- The stack on which an element is expanded: what waits beneath it, the elements that are there,
-- and where the list is to be delivered.
def elementSlots (e : FrameId) (c : Step) (rest : Value) (vs : List Value) (k : Step)
    (σ : List Slot) : List Slot :=
  .env e :: .step c :: .value rest :: (values vs.reverse ++ .sentinel :: .env e :: .step k :: σ)

theorem suffix_elementSlots : σ <:+ elementSlots e c rest vs k σ :=
  ⟨.env e :: .step c :: .value rest :: (values vs.reverse ++ [.sentinel, .env e, .step k]),
    by simp [elementSlots]⟩

theorem ne_elementSlots (h : τ <:+ σ) : τ ≠ elementSlots e c rest vs k σ := by
  intro he
  have hl := h.length_le
  rw [he] at hl
  simp only [elementSlots, List.length_cons, List.length_append] at hl
  omega

theorem checkpoints_elementSlots :
    StepLisp.checkpoints (elementSlots e c rest vs k σ) = StepLisp.checkpoints σ :=
  checkpoints_values

theorem subset_elementSlots (hh : held ⊆ List.flatMap Slot.refs (.env e :: .step k :: σ)) :
    rest.refs ++ (vs.flatMap Value.refs ++ held) ⊆
      (elementSlots e c rest vs k σ).flatMap Slot.refs := by
  intro r hr
  have hm : r ∈ rest.refs ∨ r ∈ (values vs.reverse).flatMap Slot.refs ∨
      r ∈ List.flatMap Slot.refs (.env e :: .step k :: σ) := by
    rw [mem_refs_values]
    rcases List.mem_append.mp hr with hr | hr
    · exact .inl hr
    · rcases List.mem_append.mp hr with hr | hr
      · exact .inr <| .inl <| by simpa using hr
      · exact .inr <| .inr <| hh hr
  simp only [elementSlots, List.flatMap_cons, List.flatMap_append, List.mem_append,
    Slot.refs] at hm ⊢
  tauto

theorem templateNext_eq (hm : m.control.stack.slots = .env e :: .step c :: .value rest :: τ) :
    ∃ m', templateNext m = templateRest rest m' ∧ m'.world = m.world ∧ m'.control.env = e ∧
      m'.control.stack.slots = .value m.control.val :: τ := by
  rw [templateNext, onControl_bind_eq (Control.restore_eq hm),
    onControl_bind_eq (Control.popValue_eq rfl)]
  exact ⟨_, rfl, rfl, rfl, rfl⟩

theorem pushAll_eq {items : List Value} {g : PUnit → Run Step} :
    ∃ m', ((forIn items PUnit.unit fun item _ => do
      liftM (Control.push (.value item)); Pure.pure (.yield PUnit.unit)) >>= g) m = g ⟨⟩ m' ∧
      m'.world = m.world ∧ m'.control.env = m.control.env ∧
      m'.control.stack.slots = values items.reverse ++ m.control.stack.slots := by
  induction items generalizing m
  case nil => exact ⟨m, rfl, rfl, rfl, rfl⟩
  case cons item items hi =>
    rw [List.forIn_cons, bind_assoc, bind_assoc]
    have ⟨m', hr, hw, he, hs⟩ := hi (m := { m with control := m.control.pushed (.value item) })
    refine ⟨m', hr, hw, he, hs.trans ?_⟩
    simp [values, Control.pushed, Stack.push]

theorem templateSpliced_of_none (hm : m.control.stack.slots = .env e :: .step c :: .value rest :: τ)
    (hl : m.image.store.toList? m.control.val = none) : ∃ m', templateSpliced m =
      .error (.mistyped (.notList (m.image.write m.control.val))) m' ∧ m'.world = m.world ∧
      m'.control.stack.slots = τ := by
  rw [templateSpliced, onControl_bind_eq (Control.restore_eq hm),
    onControl_bind_eq (Control.popValue_eq rfl), val_bind_eq, query_bind_eq]
  simp only [hl]
  exact ⟨_, rfl, rfl, rfl⟩

theorem templateSpliced_of_some {items : List Value}
    (hm : m.control.stack.slots = .env e :: .step c :: .value rest :: τ)
    (hl : m.image.store.toList? m.control.val = some items) : ∃ m', templateSpliced m =
      templateRest rest m' ∧ m'.world = m.world ∧ m'.control.env = e ∧
      m'.control.stack.slots = values items.reverse ++ τ := by
  rw [templateSpliced, onControl_bind_eq (Control.restore_eq hm),
    onControl_bind_eq (Control.popValue_eq rfl), val_bind_eq, query_bind_eq]
  simp only [hl]
  exact pushAll_eq

-- Whatever is interpolated, evaluation comes to something that `ev` says it may come to.
def Answers (m₀ : Machine) (ev : Evaluation) : Prop :=
  ∀ m, Expanding m₀ .eval m → ∃ r, (∀ held ⊆ m.control.kept,
    ev held m.control.env m.control.exp m.world r) ∧
      Comes .eval m m.control.cont m.control.stack.slots r

theorem Answers.realizes (h : Answers m₀ ev) (hm : Expanding m₀ .eval m)
    (hh : held ⊆ m.control.kept) : Realizes .eval m m.control.cont m.control.stack.slots
      (ev held m.control.env m.control.exp) := by
  have ⟨r, hr, hc⟩ := h m hm
  exact ⟨r, hr held hh, .inl hc⟩

-- Templates within the one that `m₀` is about to expand are expanded as `ex` says.
def Expands (m₀ : Machine) (e : FrameId) (ex : List Ref → Value → Possibly Value) : Prop :=
  ∀ m held, Inside m₀.control.stack.slots (.quasi, m₀) (.quasi, m) →
    m₀.control.stack.slots <:+ m.control.stack.slots → m.control.env = e →
    held ⊆ m.control.kept →
    Realizes .quasi m m.control.cont m.control.stack.slots (ex held m.control.exp)

section

variable (hσ : m₀.control.stack.slots <:+ σ)
variable (hh : held ⊆ List.flatMap Slot.refs (.env e :: .step k :: σ))
variable (he : m.control.env = e) (hm : m.control.stack.slots = elementSlots e c rest vs k σ)
variable (hr : ∀ us m', m'.control.env = e →
  m'.control.stack.slots = values (vs ++ us).reverse ++ .sentinel :: .env e :: .step k :: σ →
  Settles m₀ (templateRest rest m') k σ m'.world (f us))
include hσ hh he hm hr

theorem plain_settles (hex : Expands m₀ e ex) :
    Settles m₀ (expandFor .quasiNext element m) k σ m.world
      (Template.plain ex (rest.refs ++ (vs.flatMap Value.refs ++ held)) element >>= f) := by
  have hs : σ <:+ m.control.stack.slots := hm ▸ suffix_elementSlots
  have hw := hm ▸ subset_elementSlots hh
  simp only [Template.plain, bind_assoc, pure_bind]
  refine .suspend rfl hσ hs (hm ▸ ne_elementSlots hσ) (hm ▸ checkpoints_elementSlots) hw
    (fun _ hi => hex _ _ hi (hσ.trans hs) he fun r hr => ?_) fun m₁ h₁ => ?_
  · exact List.mem_append_right _ <| List.mem_cons_of_mem _ <| hw hr
  · obtain ⟨m₂, hr₂, hw₂, he₂, hs₂⟩ := templateNext_eq (h₁.trans hm)
    rw [show step .quasiNext m₁ = templateNext m₁ from rfl, hr₂, ← hw₂]
    refine hr _ m₂ he₂ (hs₂.trans ?_)
    simp [values]

theorem splice_settles (hev : Answers m₀ ev) :
    Settles m₀ (evaluateFor .quasiSpliced exp m) k σ m.world
      (Template.splice ev e (rest.refs ++ (vs.flatMap Value.refs ++ held)) exp >>= f) := by
  have hs : σ <:+ m.control.stack.slots := hm ▸ suffix_elementSlots
  have hw := hm ▸ subset_elementSlots hh
  simp only [Template.splice, bind_assoc]
  subst he
  refine .suspend rfl hσ hs (hm ▸ ne_elementSlots hσ) (hm ▸ checkpoints_elementSlots) hw
    (fun hx _ => hev.realizes hx fun r hr => ?_) fun m₁ h₁ => ?_
  · exact List.mem_append_right _ <| List.mem_cons_of_mem _ <| hw hr
  · refine .read_bind ?_
    rw [show step .quasiSpliced m₁ = templateSpliced m₁ from rfl]
    cases hl : m₁.world.image.store.toList? m₁.control.val
    case none =>
      obtain ⟨m₂, hr₂, hw₂, hs₂⟩ := templateSpliced_of_none (h₁.trans hm) hl
      rw [hr₂, ← hw₂]
      refine .fail ?_ ?_
      · rw [hw₂]
        rfl
      · rw [checkpoints, hs₂]
        exact checkpoints_values
    case some items =>
      obtain ⟨m₂, hr₂, hw₂, he₂, hs₂⟩ := templateSpliced_of_some (h₁.trans hm) hl
      simp only [pure_bind]
      rw [hr₂, ← hw₂]
      refine hr _ m₂ he₂ (hs₂.trans ?_)
      simp [values]

theorem items_settles (hev : Answers m₀ ev) (hex : Expands m₀ e ex) : Settles m₀ ((do
      match ← query (·.uncons? element) with
      | some (.symbol x, operands) =>
        if x = .unquoteSplicing then
          evaluateFor .quasiSpliced (← single operands)
        else expandFor .quasiNext element
      | _ => expandFor .quasiNext element : Run Step) m) k σ m.world
      (Template.items ev ex e (rest.refs ++ (vs.flatMap Value.refs ++ held)) element >>= f) := by
  have hp : Settles m₀ (expandFor .quasiNext element m) k σ m.world _ :=
    plain_settles hσ hh he hm hr hex
  rw [query_bind_eq, Template.items, bind_assoc]
  refine .read_bind ?_
  rw [show m.world.image.store = m.image.store from rfl]
  rcases m.image.store.uncons? element with _ | ⟨head, operands⟩
  case none => exact hp
  case some =>
    cases head
    case symbol x =>
      simp only
      split
      case isTrue =>
        rw [bind_assoc]
        refine .within_bind single_plain he ?_ fun exp m' h' => ?_
        · rw [checkpoints, hm]
          exact checkpoints_elementSlots
        · exact splice_settles hσ hh (h' ▸ he) (h' ▸ hm) hr hev
      case isFalse => exact hp
    all_goals exact hp

end

section

variable (hσ : m₀.control.stack.slots <:+ σ)
variable (hh : held ⊆ List.flatMap Slot.refs (.env e :: .step k :: σ))
include hσ hh

-- The rest of a list, if there is one, once an element is there.
theorem templateRest_settles {x : PairId → Possibly (List Value)} (hl : rest.isListLike)
    (hx : ∀ id, rest = .pair id → Settles m₀ (templateElement (.pair id) m) k σ m.world (do
      let vs ← x id
      pause (vs.flatMap Value.refs ++ held)
      within e (Store.list vs))) (he : m.control.env = e)
    (hm : m.control.stack.slots = values vs.reverse ++ .sentinel :: .env e :: .step k :: σ) :
    Settles m₀ (templateRest rest m) k σ m.world (do
      let vs ← (match rest with
        | .pair id => x id
        | _ => return vs)
      pause (vs.flatMap Value.refs ++ held)
      within e (Store.list vs)) := by
  cases rest
  case pair id => exact hx id rfl
  case nil =>
    simp only [pure_bind]
    have hs : σ <:+ m.control.stack.slots :=
      hm ▸ ⟨values vs.reverse ++ [.sentinel, .env e, .step k], by simp⟩
    refine .of_realizes (fun hx => finish_realizes (hx.inside hσ hs ?_) hm he hh) hs
    intro hn
    have hlen := hσ.length_le
    rw [hn, hm] at hlen
    simp at hlen
    omega
  all_goals cases hl

theorem templateElement_settles (hev : Answers m₀ ev) (hex : Expands m₀ e ex) {n : Nat}
    {id : PairId} (he : m.control.env = e)
    (hm : m.control.stack.slots = values vs.reverse ++ .sentinel :: .env e :: .step k :: σ) :
    Settles m₀ (templateElement (.pair id) m) k σ m.world (do
      let vs ← Template.elements ev ex e held n id vs
      pause (vs.flatMap Value.refs ++ held)
      within e (Store.list vs)) := by
  induction n generalizing id vs m
  case zero => exact .unfinished ⟨m.world, .inr ⟨_, _, rfl, rfl⟩⟩
  case succ n hi =>
    simp only [templateElement, Template.elements, bind_assoc]
    rw [query_bind_eq]
    refine .read_bind <| .read_bind ?_
    rw [show m.world.image.store = m.image.store from rfl]
    rw [show m.image.store.uncons? (.pair id) = some (m.image.store.car id, m.image.store.cdr id)
      from rfl]
    generalize m.image.store.car id = element, m.image.store.cdr id = rest
    simp only
    split
    case isFalse =>
      refine .fail rfl ?_
      rw [checkpoints, hm]
      exact checkpoints_values
    case isTrue hl =>
      rw [bind_assoc]
      have hs : .env m.control.env :: .step m.control.cont :: .value rest :: m.control.stack.slots =
          elementSlots e m.control.cont rest vs k σ := by rw [elementSlots, hm, he]
      exact items_settles hσ hh he hs
        (fun us m' he' hm' => templateRest_settles hσ hh hl (fun _ _ => hi he' hm') he' hm') hev hex

end

end Elements

section Expansion

variable {m₀ m : Machine} {ev : Evaluation} {ex : List Ref → Value → Possibly Value} {fuel : Nat}
variable {held : List Ref} {id : PairId} {exp : Value}

theorem mem_roots_of_kept {next : Step} {r : Ref} (h : r ∈ m.control.kept) : r ∈ m.roots next := by
  refine mem_roots_of_control ?_
  simp only [Control.kept, Control.roots, List.mem_append, List.mem_cons] at h ⊢
  tauto

theorem kept_subset_saved :
    m.control.kept ⊆ List.flatMap Slot.refs
      (.env m.control.env :: .step m.control.cont :: m.control.stack.slots) := by
  intro r hr
  simp only [Control.kept, List.flatMap_cons, Slot.refs, List.mem_append, List.mem_cons,
    List.not_mem_nil, or_false] at hr ⊢
  tauto

section

variable (hσ : m₀.control.stack.slots <:+ m.control.stack.slots) (hh : held ⊆ m.control.kept)
include hσ hh

theorem expandList_settles (hev : Answers m₀ ev) (hex : Expands m₀ m.control.env ex) :
    Settles m₀ (expandList (.pair id) m) m.control.cont m.control.stack.slots m.world
      (Template.list ev ex m.control.env held fuel id) :=
  templateElement_settles hσ (List.Subset.trans hh kept_subset_saved) hev hex rfl rfl

theorem nested_settles {operands : Value} (hex : Expands m₀ m.control.env ex) :
    Settles m₀ ((do
      Control.save
      expandFor .quasiRewrap (← single operands) : Run Step) m) m.control.cont
      m.control.stack.slots m.world (do
        let form ← within m.control.env (single operands)
        Template.nested ex m.control.env held form) := by
  refine Settles.within_bind (m := { m with control := (m.control.pushed _).pushed _ })
    single_plain rfl rfl fun form m' h' => ?_
  have hs : m'.control.stack.slots =
      .env m.control.env :: .step m.control.cont :: m.control.stack.slots := by
    rw [h']
    rfl
  have hm' : m.control.stack.slots <:+ m'.control.stack.slots := hs ▸ ⟨[_, _], rfl⟩
  have hw := hs ▸ List.Subset.trans hh kept_subset_saved
  have hk : Step.quasiRewrap.expands := rfl
  refine .suspend hk hσ hm' (fun he => ?_) ?_ hw (fun _ hi => ?_) fun m₁ h₁ => ?_
  · have hl := hσ.length_le
    rw [he, hs] at hl
    simp at hl
  · rw [hs]
    rfl
  · refine hex _ _ hi (hσ.trans hm') ?_ fun r hr => ?_
    · rw [h']
      rfl
    · exact List.mem_append_right _ <| List.mem_cons_of_mem _ <| hw hr
  · exact rewrap_settles (h₁.trans hs)

end

theorem expand_expands (hev : Answers m₀ ev) (fuel : Nat) (e : FrameId) :
    Expands m₀ e (Template.expand ev fuel e) := by
  induction fuel
  case zero => exact fun m _ _ _ _ _ => ⟨_, rfl, .inr ⟨m.world, rfl⟩⟩
  case succ fuel hi =>
    rintro m held hin hσ rfl hh
    refine .of_settles rfl hin (fun r hr => ?_) fun m₁ h₁ => ?_
    · rcases List.mem_append.mp hr with hr | hr
      · exact mem_roots_of_exp hr
      · exact mem_roots_of_kept (hh hr)
    · rw [← h₁] at hσ hh hi ⊢
      rw [show step .quasi m₁ = expand m₁ from rfl, expand, get_bind_eq, query_bind_eq]
      generalize m₁.control.exp = form
      cases form
      case pair id =>
        refine .read_bind ?_
        rw [show m₁.world.image.store = m₁.image.store from rfl, Store.uncons?]
        generalize m₁.image.store.car id = head
        cases head
        case symbol x =>
          simp only
          split
          case isTrue => exact .read_bind <| nested_settles hσ hh hi
          case isFalse =>
            split
            case isTrue =>
              refine .read_bind <| .within_bind single_plain rfl rfl fun exp m' h' => ?_
              rw [← h']
              exact .of_realizes (fun hx => hev.realizes hx (h' ▸ hh)) (List.suffix_refl _)
            case isFalse =>
              split
              case isTrue =>
                rw [show discard (single (m₁.image.store.cdr id)) =
                  (fun _ => ()) <$> single (m₁.image.store.cdr id) from rfl, bind_map_left]
                refine .read_bind <| .within_bind single_plain rfl rfl fun _ m' h' => ?_
                rw [← bind_pure (liftM _), ← h']
                exact .fail rfl rfl
              case isFalse => exact expandList_settles hσ hh hev hi
        all_goals exact expandList_settles hσ hh hev hi
      all_goals exact .deliver rfl rfl

end Expansion

end Machine
end StepLisp
