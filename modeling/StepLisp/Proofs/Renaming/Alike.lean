import Mathlib.Data.List.Forall2
import Mathlib.Order.Monotone.Defs
import StepLisp.Proofs.Store.Object
import StepLisp.Symbol

namespace StepLisp

-- `ρ r r'`: what is `r` on the one side is `r'` on the other.
abbrev Renaming := Ref → Ref → Prop

variable {ρ τ : Renaming} {r r' : Ref}

namespace Renaming

def empty : Renaming := fun _ _ =>
  False

theorem empty_le : empty ≤ ρ :=
  fun _ _ => False.elim

def insert (ρ : Renaming) (r r' : Ref) : Renaming := fun q q' =>
  ρ q q' ∨ q = r ∧ q' = r'

theorem le_insert : ρ ≤ ρ.insert r r' :=
  fun _ _ => .inl

theorem insert_self : ρ.insert r r' r r' :=
  .inr ⟨rfl, rfl⟩

-- Different references stand for different references.
structure Injective (ρ : Renaming) : Prop where
  left {q q' r' : Ref} : ρ q r' → ρ q' r' → q = q'
  right {r q q' : Ref} : ρ r q → ρ r q' → q = q'

theorem Injective.eq_iff {q q' : Ref} (h : ρ.Injective) (hr : ρ r r') (hq : ρ q q') :
    q = r ↔ q' = r' := by
  constructor <;> rintro rfl
  case mp => exact h.right hq hr
  case mpr => exact h.left hq hr

end Renaming

theorem Handle.ref_inj {kind : Kind} {i i' : Handle kind} : i.ref = i'.ref ↔ i = i' := by
  obtain ⟨n⟩ := i
  obtain ⟨n'⟩ := i'
  simp [Handle.ref]

theorem Handle.index_inj {kind : Kind} {i i' : Handle kind} : i.index = i'.index ↔ i = i' := by
  obtain ⟨n⟩ := i
  obtain ⟨n'⟩ := i'
  simp

theorem Renaming.Injective.handle_eq_iff {kind : Kind} {i i' j j' : Handle kind} (h : ρ.Injective)
    (hi : ρ i.ref i'.ref) (hj : ρ j.ref j'.ref) : i' = j' ↔ i = j := by
  rw [← Handle.ref_inj, ← Handle.ref_inj (i := i)]
  exact (h.eq_iff hj hi).symm

theorem forall₂_imp_mem {α β : Type} {R S : α → β → Prop} {as : List α} {bs : List β}
    (h : List.Forall₂ R as bs) (hi : ∀ a ∈ as, ∀ b ∈ bs, R a b → S a b) : List.Forall₂ S as bs := by
  induction h
  case nil => exact .nil
  case cons h _ hr =>
    exact .cons (hi _ (by simp) _ (by simp) h) <|
      hr fun a ha b hb => hi a (by simp [ha]) b (by simp [hb])

inductive Value.Alike (ρ : Renaming) : Value → Value → Prop
  | nil : Alike ρ .nil .nil
  | truth : Alike ρ .truth .truth
  | int (n : Int64) : Alike ρ (.int n) (.int n)
  | float (x : Float) : Alike ρ (.float x) (.float x)
  | symbol (x : Symbol) : Alike ρ (.symbol x) (.symbol x)
  | builtin (b : BuiltinId) : Alike ρ (.builtin b) (.builtin b)
  | string {i i' : StringId} : ρ i.ref i'.ref → Alike ρ (.string i) (.string i')
  | pair {i i' : PairId} : ρ i.ref i'.ref → Alike ρ (.pair i) (.pair i')
  | closure {i i' : ClosureId} : ρ i.ref i'.ref → Alike ρ (.closure i) (.closure i')
  | continuation {i i' : ContinuationId} : ρ i.ref i'.ref →
    Alike ρ (.continuation i) (.continuation i')
  | foreign {i i' : ForeignId} : ρ i.ref i'.ref → Alike ρ (.foreign i) (.foreign i')

namespace Value.Alike

variable {v v' w w' : Value}

theorem imp (h : v.Alike ρ v') (hi : ∀ r ∈ v.refs, ∀ r' ∈ v'.refs, ρ r r' → τ r r') :
    v.Alike τ v' := by
  cases h
  case nil => exact .nil
  case truth => exact .truth
  case int => exact .int _
  case float => exact .float _
  case symbol => exact .symbol _
  case builtin => exact .builtin _
  case string h => exact .string <| hi _ (by simp [refs]) _ (by simp [refs]) h
  case pair h => exact .pair <| hi _ (by simp [refs]) _ (by simp [refs]) h
  case closure h => exact .closure <| hi _ (by simp [refs]) _ (by simp [refs]) h
  case continuation h => exact .continuation <| hi _ (by simp [refs]) _ (by simp [refs]) h
  case foreign h => exact .foreign <| hi _ (by simp [refs]) _ (by simp [refs]) h

theorem mono (h : v.Alike ρ v') (hρ : ρ ≤ τ) : v.Alike τ v' :=
  h.imp fun r _ r' _ => hρ r r'

theorem monotone : Monotone Value.Alike :=
  fun _ _ hρ _ _ h => h.mono hρ

theorem refs (h : v.Alike ρ v') : List.Forall₂ ρ v.refs v'.refs := by
  cases h <;> simp only [Value.refs, List.Forall₂.nil, List.forall₂_cons, and_true] <;> assumption

theorem eq_of_le (h : v.Alike ρ v') (hρ : ρ ≤ Eq) : v = v' := by
  cases h <;> first | rfl | exact congrArg _ (Handle.ref_inj.mp <| hρ _ _ ‹_›)

theorem beq_eq (hv : v.Alike ρ v') (hw : w.Alike ρ w') (h : ρ.Injective) :
    (v' == w') = (v == w) := by
  have same {kind} {i i' j j' : Handle kind} (hi : ρ i.ref i'.ref) (hj : ρ j.ref j'.ref) :
      (i' == j') = (i == j) := by
    simp only [beq_eq_decide, h.handle_eq_iff hi hj]
  cases hv <;> cases hw <;> first | rfl | exact same ‹_› ‹_›

theorem isNil_eq (h : v.Alike ρ v') : v'.isNil = v.isNil := by
  cases h <;> rfl

theorem isPair_eq (h : v.Alike ρ v') : v'.isPair = v.isPair := by
  cases h <;> rfl

theorem isListLike_eq (h : v.Alike ρ v') : v'.isListLike = v.isListLike := by
  cases h <;> rfl

theorem isProcedure_eq (h : v.Alike ρ v') : v'.isProcedure = v.isProcedure := by
  cases h <;> rfl

theorem int?_eq (h : v.Alike ρ v') : v'.int? = v.int? := by
  cases h <;> rfl

theorem number?_eq (h : v.Alike ρ v') : v'.number? = v.number? := by
  cases h <;> rfl

theorem type_eq (h : v.Alike ρ v') : v'.type = v.type := by
  cases h <;> rfl

theorem ofBool (b : Bool) : (Value.ofBool b).Alike ρ (.ofBool b) := by
  cases b
  case true => exact .truth
  case false => exact .nil

end Value.Alike

inductive Step.Alike (ρ : Renaming) : Step → Step → Prop
  | apply {v v' : Value} : v.Alike ρ v' → Alike ρ (.apply v) (.apply v')
  | same {k : Step} : k.value? = none → Alike ρ k k

inductive Callee.Alike (ρ : Renaming) : Callee → Callee → Prop
  | proc {v v' : Value} : v.Alike ρ v' → Alike ρ (.proc v) (.proc v')
  | foreign (group : GroupId) (function : Symbol) :
    Alike ρ (.foreign group function) (.foreign group function)

inductive Slot.Alike (ρ : Renaming) : Slot → Slot → Prop
  | value {v v' : Value} : v.Alike ρ v' → Alike ρ (.value v) (.value v')
  | env {e e' : FrameId} : ρ e.ref e'.ref → Alike ρ (.env e) (.env e')
  | step {k k' : Step} : k.Alike ρ k' → Alike ρ (.step k) (.step k')
  | callee {c c' : Callee} : c.Alike ρ c' → Alike ρ (.callee c) (.callee c')
  | sentinel : Alike ρ .sentinel .sentinel
  | trap {e e' : FrameId} {k k' : Step} : ρ e.ref e'.ref → k.Alike ρ k' →
    Alike ρ (.trap ⟨e, k⟩) (.trap ⟨e', k'⟩)

namespace Step.Alike

variable {k k' : Step}

theorem imp (h : k.Alike ρ k') (hi : ∀ r ∈ k.refs, ∀ r' ∈ k'.refs, ρ r r' → τ r r') :
    k.Alike τ k' := by
  cases h
  case apply h => exact .apply <| h.imp hi
  case same h => exact .same h

theorem mono (h : k.Alike ρ k') (hρ : ρ ≤ τ) : k.Alike τ k' :=
  h.imp fun r _ r' _ => hρ r r'

theorem refs (h : k.Alike ρ k') : List.Forall₂ ρ k.refs k'.refs := by
  cases h
  case apply h => exact h.refs
  case same h => cases k <;> first | exact .nil | cases h

theorem eq_of_le (h : k.Alike ρ k') (hρ : ρ ≤ Eq) : k = k' := by
  cases h
  case apply h => rw [h.eq_of_le hρ]
  case same => rfl

theorem halt_iff (h : k.Alike ρ k') : k = .halt ↔ k' = .halt := by
  cases h
  case apply => simp
  case same => rfl

end Step.Alike

namespace Slot.Alike

variable {slot slot' : Slot} {slots slots' : List Slot}

theorem imp (h : slot.Alike ρ slot') (hi : ∀ r ∈ slot.refs, ∀ r' ∈ slot'.refs, ρ r r' → τ r r') :
    slot.Alike τ slot' := by
  cases h
  case value h => exact .value <| h.imp hi
  case env h => exact .env <| hi _ (by simp [Slot.refs]) _ (by simp [Slot.refs]) h
  case step h => exact .step <| h.imp hi
  case callee h =>
    cases h
    case proc h => exact .callee <| .proc <| h.imp hi
    case foreign => exact .callee <| .foreign ..
  case sentinel => exact .sentinel
  case trap h hk =>
    refine .trap (hi _ (by simp [Slot.refs]) _ (by simp [Slot.refs]) h) <| hk.imp ?_
    exact fun r hr r' hr' => hi r (by simp [Slot.refs, hr]) r' (by simp [Slot.refs, hr'])

theorem mono (h : slot.Alike ρ slot') (hρ : ρ ≤ τ) : slot.Alike τ slot' :=
  h.imp fun r _ r' _ => hρ r r'

theorem refs (h : slot.Alike ρ slot') : List.Forall₂ ρ slot.refs slot'.refs := by
  cases h
  case value h => exact h.refs
  case env h => exact .cons h .nil
  case step h => exact h.refs
  case callee h =>
    cases h
    case proc h => exact h.refs
    case foreign => exact .nil
  case sentinel => exact .nil
  case trap h hk => exact .cons h hk.refs

theorem eq_of_le (h : slot.Alike ρ slot') (hρ : ρ ≤ Eq) : slot = slot' := by
  cases h
  case value h => rw [h.eq_of_le hρ]
  case env h => rw [Handle.ref_inj.mp <| hρ _ _ h]
  case step h => rw [h.eq_of_le hρ]
  case callee h =>
    cases h
    case proc h => rw [h.eq_of_le hρ]
    case foreign => rfl
  case sentinel => rfl
  case trap h hk => rw [Handle.ref_inj.mp <| hρ _ _ h, hk.eq_of_le hρ]

end Slot.Alike

theorem Slot.Alike.list_eq_of_le {slots slots' : List Slot}
    (h : List.Forall₂ (Slot.Alike ρ) slots slots') (hρ : ρ ≤ Eq) : slots = slots' := by
  induction h
  case nil => rfl
  case cons h _ hi => rw [h.eq_of_le hρ, hi]

-- Objects

structure Cell.Alike (ρ : Renaming) (c c' : Cell) : Prop where
  car : c.car.Alike ρ c'.car
  cdr : c.cdr.Alike ρ c'.cdr

structure Frame.Alike (ρ : Renaming) (f f' : Frame) : Prop where
  bindings : List.Forall₂ (fun b b' => b.1 = b'.1 ∧ b.2.Alike ρ b'.2) f.bindings f'.bindings
  parent : Option.Rel (fun e e' => ρ e.ref e'.ref) f.parent f'.parent

structure Closure.Alike (ρ : Renaming) (c c' : Closure) : Prop where
  params : c.params.Alike ρ c'.params
  body : c.body.Alike ρ c'.body
  env : ρ c.env.ref c'.env.ref
  special : c.special = c'.special

structure Continuation.Alike (ρ : Renaming) (k k' : Continuation) : Prop where
  step : k.step.Alike ρ k'.step
  slots : List.Forall₂ (Slot.Alike ρ) k.stack.slots k'.stack.slots
  env : ρ k.env.ref k'.env.ref
  special : k.special = k'.special

inductive Object.Alike (ρ : Renaming) : Object → Object → Prop
  | cell {c c' : Cell} : c.Alike ρ c' → Alike ρ (.cell c) (.cell c')
  | string (text : String) : Alike ρ (.string text) (.string text)
  | frame {f f' : Frame} : f.Alike ρ f' → Alike ρ (.frame f) (.frame f')
  | closure {c c' : Closure} : c.Alike ρ c' → Alike ρ (.closure c) (.closure c')
  | continuation {k k' : Continuation} : k.Alike ρ k' → Alike ρ (.continuation k) (.continuation k')
  | foreign (f : Foreign) : Alike ρ (.foreign f) (.foreign f)

theorem Closure.Alike.eq_of_le {c c' : Closure} (h : c.Alike ρ c') (hρ : ρ ≤ Eq) : c = c' := by
  obtain ⟨params, body, env, special⟩ := c
  obtain ⟨params', body', env', special'⟩ := c'
  obtain ⟨hp, hb, he, hs⟩ := h
  cases hp.eq_of_le hρ
  cases hb.eq_of_le hρ
  cases Handle.ref_inj.mp <| hρ _ _ he
  cases hs
  rfl

theorem Continuation.Alike.eq_of_le {k k' : Continuation} (h : k.Alike ρ k') (hρ : ρ ≤ Eq) :
    k = k' := by
  obtain ⟨step, ⟨slots, depth, hd⟩, env, special⟩ := k
  obtain ⟨step', ⟨slots', depth', hd'⟩, env', special'⟩ := k'
  obtain ⟨hk, hl, he, hs⟩ := h
  cases hk.eq_of_le hρ
  cases Slot.Alike.list_eq_of_le hl hρ
  cases Handle.ref_inj.mp <| hρ _ _ he
  cases hs
  cases hd.trans hd'.symm
  rfl

theorem Frame.Alike.imp {f f' : Frame} (h : f.Alike ρ f')
    (hi : ∀ r ∈ f.refs, ∀ r' ∈ f'.refs, ρ r r' → τ r r') : f.Alike τ f' := by
  constructor
  case bindings =>
    refine forall₂_imp_mem h.bindings fun b hb b' hb' ⟨hx, hv⟩ => ⟨hx, hv.imp fun r hr r' hr' => ?_⟩
    refine hi r ?_ r' ?_ <;>
      simp only [refs, values, List.mem_append, List.mem_flatMap, List.mem_map]
    · exact .inl ⟨b.2, ⟨b, hb, rfl⟩, hr⟩
    · exact .inl ⟨b'.2, ⟨b', hb', rfl⟩, hr'⟩
  case parent =>
    have hp := h.parent
    simp only [refs] at hi
    generalize f.parent = parent, f'.parent = parent' at hp hi ⊢
    cases hp
    case none => exact .none
    case some h => exact .some <| hi _ (by simp) _ (by simp) h

theorem Frame.Alike.refs {f f' : Frame} (h : f.Alike ρ f') : List.Forall₂ ρ f.refs f'.refs := by
  have hv : List.Forall₂ (Value.Alike ρ) f.values f'.values := by
    simpa [values] using h.bindings.imp fun _ _ hb => hb.right
  refine List.rel_append (List.rel_flatMap hv fun _ _ hw => hw.refs) ?_
  have hp := h.parent
  generalize f.parent = parent, f'.parent = parent' at hp ⊢
  cases hp <;> simp [*]

theorem Frame.Alike.define {f f' : Frame} {x : Symbol} {v v' : Value} (h : f.Alike ρ f')
    (hv : v.Alike ρ v') : (f.define x v).Alike ρ (f'.define x v') := by
  refine ⟨?_, h.parent⟩
  have hb := h.bindings
  simp only [Frame.define]
  generalize f.bindings = bs, f'.bindings = bs' at hb
  induction hb
  case nil => exact .cons ⟨rfl, hv⟩ .nil
  case cons b b' bs bs' hb hbs hi =>
    obtain ⟨y, u⟩ := b
    obtain ⟨y', u'⟩ := b'
    obtain ⟨rfl, hu⟩ := hb
    simp only [Frame.bind]
    split
    case isTrue => exact .cons ⟨rfl, hv⟩ hbs
    case isFalse => exact .cons ⟨rfl, hu⟩ hi

theorem Frame.Alike.get? {f f' : Frame} {x : Symbol} (h : f.Alike ρ f') :
    Option.Rel (Value.Alike ρ) (f.get? x) (f'.get? x) := by
  have hb := h.bindings
  unfold Frame.get?
  generalize f.bindings = bs, f'.bindings = bs' at hb
  induction hb
  case nil => exact .none
  case cons b b' _ _ hb _ hi =>
    obtain ⟨y, u⟩ := b
    obtain ⟨y', u'⟩ := b'
    obtain ⟨rfl, hu⟩ := hb
    simp only [List.lookup_cons]
    split
    case h_1 => exact .some hu
    case h_2 => exact hi

theorem Object.Alike.imp {o o' : Object} (h : o.Alike ρ o')
    (hi : ∀ r ∈ o.refs, ∀ r' ∈ o'.refs, ρ r r' → τ r r') : o.Alike τ o' := by
  cases h
  case cell c c' h =>
    simp only [refs, Cell.refs, List.mem_append] at hi
    exact .cell ⟨h.car.imp fun r hr r' hr' => hi r (.inl hr) r' (.inl hr'),
      h.cdr.imp fun r hr r' hr' => hi r (.inr hr) r' (.inr hr')⟩
  case string => exact .string _
  case frame h => exact .frame <| h.imp hi
  case closure c c' h =>
    simp only [refs, Closure.refs, List.mem_append, List.mem_singleton] at hi
    exact .closure ⟨h.params.imp fun r hr r' hr' => hi r (.inl <| .inl hr) r' (.inl <| .inl hr'),
      h.body.imp fun r hr r' hr' => hi r (.inl <| .inr hr) r' (.inl <| .inr hr'),
      hi _ (.inr rfl) _ (.inr rfl) h.env, h.special⟩
  case continuation k k' h =>
    simp only [refs, Continuation.refs, List.mem_append, List.mem_flatMap, List.mem_singleton] at hi
    refine .continuation
      ⟨h.step.imp fun r hr r' hr' => hi r (.inl <| .inr hr) r' (.inl <| .inr hr'),
      forall₂_imp_mem h.slots fun slot hs slot' hs' hl => hl.imp fun r hr r' hr' => ?_,
      hi _ (.inr rfl) _ (.inr rfl) h.env, h.special⟩
    exact hi r (.inl <| .inl ⟨slot, hs, hr⟩) r' (.inl <| .inl ⟨slot', hs', hr'⟩)
  case foreign => exact .foreign _

theorem Object.Alike.mono {o o' : Object} (h : o.Alike ρ o') (hρ : ρ ≤ τ) : o.Alike τ o' :=
  h.imp fun r _ r' _ => hρ r r'

theorem Object.Alike.refs {o o' : Object} (h : o.Alike ρ o') : List.Forall₂ ρ o.refs o'.refs := by
  cases h
  case cell h => exact List.rel_append h.car.refs h.cdr.refs
  case string => exact .nil
  case frame h => exact h.refs
  case closure h =>
    exact List.rel_append (List.rel_append h.params.refs h.body.refs) (.cons h.env .nil)
  case continuation h =>
    have hs := List.rel_flatMap h.slots fun _ _ hl => hl.refs
    exact List.rel_append (List.rel_append hs h.step.refs) (.cons h.env .nil)
  case foreign => exact .nil

end StepLisp
