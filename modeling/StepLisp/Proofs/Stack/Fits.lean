import StepLisp.Control

namespace StepLisp

-- Values that have piled up, the last one on top.
def Slot.values (vs : List Value) : List Slot :=
  vs.map .value

open Slot (values)

-- `Fits k slots`: the slots are what `k` and the steps after it expect.
inductive Fits : Step → List Slot → Prop
  | halt : Fits .halt []
  | evalOperator {args e k σ} : Fits k σ →
    Fits .evalOperator (.value args :: .env e :: .step k :: σ)
  | evalOperand {e rest vs callee e' k σ} : Fits k σ →
    Fits .evalOperand (.env e :: .value rest ::
      (values vs ++ .sentinel :: .callee callee :: .env e' :: .step k :: σ))
  | beginNext {rest e k σ} : Fits k σ →
    Fits .beginNext (.value rest :: .env e :: .step k :: σ)
  | ifBranch {alternate consequent e k σ} : Fits k σ →
    Fits .ifBranch (.value alternate :: .value consequent :: .env e :: .step k :: σ)
  | condNext {body rest e k σ} : Fits k σ →
    Fits .condNext (.value body :: .value rest :: .env e :: .step k :: σ)
  | defineBind {x e k σ} : Fits k σ →
    Fits .defineBind (.value (.symbol x) :: .env e :: .step k :: σ)
  | setBind {x e k σ} : Fits k σ →
    Fits .setBind (.value (.symbol x) :: .env e :: .step k :: σ)
  | specialBind {x e k σ} : Fits k σ →
    Fits .specialBind (.value (.symbol x) :: .env e :: .step k :: σ)
  | quasiRewrap {e k σ} : Fits k σ →
    Fits .quasiRewrap (.env e :: .step k :: σ)
  -- What is left of a template lies above the elements that are done, and is a list.
  | quasiNext {e rest vs e' k σ} : rest.isListLike → Fits k σ →
    Fits .quasiNext (.env e :: .step k :: .value rest ::
      (values vs ++ .sentinel :: .env e' :: .step k :: σ))
  | quasiSpliced {e rest vs e' k σ} : rest.isListLike → Fits k σ →
    Fits .quasiSpliced (.env e :: .step k :: .value rest ::
      (values vs ++ .sentinel :: .env e' :: .step k :: σ))
  | trapDone {e k σ} : Fits k σ →
    Fits .trapDone (.trap ⟨e, k⟩ :: σ)

-- What the stack looks like before a step is taken, by that step and the continuation register.
inductive Pending : Step → Step → List Slot → Prop
  | eval {k σ} : Fits k σ → Pending .eval k σ
  | apply {proc k σ} : Fits k σ → Pending (.apply proc) k σ
  | quasi {k σ} : Fits k σ → Pending .quasi k σ
  -- All elements of a template are done.
  | quasiFinish {vs e k σ} : Fits k σ →
    Pending .quasiFinish k (values vs ++ .sentinel :: .env e :: .step k :: σ)
  | deliver {k σ} : Fits k σ → Pending k k σ

-- `Awaits k' τ k σ`: the step `k'`, which finds `τ`, goes on with an expression whose value is for
-- `k` on `σ`. That is one layer of `Fits`.
inductive Awaits : Step → List Slot → Step → List Slot → Prop
  | evalOperator {args e k σ} : Awaits .evalOperator (.value args :: .env e :: .step k :: σ) k σ
  | evalOperand {e rest vs callee e' k σ} :
    Awaits .evalOperand (.env e :: .value rest ::
      (values vs ++ .sentinel :: .callee callee :: .env e' :: .step k :: σ)) k σ
  | beginNext {rest e k σ} : Awaits .beginNext (.value rest :: .env e :: .step k :: σ) k σ
  | ifBranch {alternate consequent e k σ} :
    Awaits .ifBranch (.value alternate :: .value consequent :: .env e :: .step k :: σ) k σ
  | condNext {body rest e k σ} :
    Awaits .condNext (.value body :: .value rest :: .env e :: .step k :: σ) k σ
  | defineBind {x e k σ} : Awaits .defineBind (.value (.symbol x) :: .env e :: .step k :: σ) k σ
  | setBind {x e k σ} : Awaits .setBind (.value (.symbol x) :: .env e :: .step k :: σ) k σ
  | specialBind {x e k σ} : Awaits .specialBind (.value (.symbol x) :: .env e :: .step k :: σ) k σ
  | quasiRewrap {e k σ} : Awaits .quasiRewrap (.env e :: .step k :: σ) k σ
  | quasiNext {e rest vs e' k σ} : rest.isListLike →
    Awaits .quasiNext (.env e :: .step k :: .value rest ::
      (values vs ++ .sentinel :: .env e' :: .step k :: σ)) k σ
  | quasiSpliced {e rest vs e' k σ} : rest.isListLike →
    Awaits .quasiSpliced (.env e :: .step k :: .value rest ::
      (values vs ++ .sentinel :: .env e' :: .step k :: σ)) k σ
  | trapDone {e k σ} : Awaits .trapDone (.trap ⟨e, k⟩ :: σ) k σ

-- `Standing k σ next cont slots`: before the step `next`, with this continuation register and
-- stack, the expression that the step is part of has its value for `k` on `σ`.
inductive Standing (k : Step) (σ : List Slot) : Step → Step → List Slot → Prop
  | eval : Standing k σ .eval k σ
  | apply {proc} : Standing k σ (.apply proc) k σ
  | quasi : Standing k σ .quasi k σ
  | quasiFinish {vs e} :
    Standing k σ .quasiFinish k (values vs ++ .sentinel :: .env e :: .step k :: σ)
  | follow {k' τ} : Awaits k' τ k σ → Standing k σ k' k' τ

-- `Goes hands k σ next cont slots`: how a step of an expression with its value for `k` on `σ` can
-- go on. What is evaluated or expanded next is either handed that place, or delivers to a step that
-- goes on with the expression.
inductive Goes (hands : Bool) (k : Step) (σ : List Slot) : Step → Step → List Slot → Prop
  | eval : hands → Goes hands k σ .eval k σ
  | quasi : hands → Goes hands k σ .quasi k σ
  | evalFor {k' τ} : hands = false → Awaits k' τ k σ → Goes hands k σ .eval k' τ
  | quasiFor {k' τ} : hands = false → Awaits k' τ k σ → Goes hands k σ .quasi k' τ
  | apply {proc} : Goes hands k σ (.apply proc) k σ
  | quasiFinish {vs e} :
    Goes hands k σ .quasiFinish k (values vs ++ .sentinel :: .env e :: .step k :: σ)
  | deliver : Goes hands k σ k k σ

theorem Awaits.fits {k' k : Step} {τ σ : List Slot} (ha : Awaits k' τ k σ) (h : Fits k σ) :
    Fits k' τ := by
  cases ha <;> constructor <;> assumption

theorem Fits.halt_or_awaits {k' : Step} {τ : List Slot} (h : Fits k' τ) :
    k' = .halt ∨ ∃ k σ, Awaits k' τ k σ ∧ Fits k σ := by
  cases h
  case halt => exact .inl rfl
  all_goals exact .inr ⟨_, _, by constructor <;> assumption, ‹_›⟩

theorem Pending.halt_or_standing {next cont : Step} {slots : List Slot}
    (h : Pending next cont slots) :
    next = .halt ∨ ∃ k σ, Standing k σ next cont slots ∧ Fits k σ := by
  cases h
  case deliver h =>
    refine h.halt_or_awaits.imp_right ?_
    rintro ⟨k, σ, ha, hf⟩
    exact ⟨k, σ, .follow ha, hf⟩
  all_goals exact .inr ⟨_, _, by constructor, ‹_›⟩

theorem Standing.in_place {k next cont : Step} {σ slots : List Slot}
    (h : Standing k σ next cont slots) (hn : next = .eval ∨ ∃ proc, next = .apply proc) :
    cont = k ∧ slots = σ := by
  cases h
  case eval | apply | quasi => exact ⟨rfl, rfl⟩
  case quasiFinish => simp at hn
  case follow ha => cases ha <;> simp at hn

theorem Goes.pending {hands : Bool} {k next cont : Step} {σ slots : List Slot}
    (hg : Goes hands k σ next cont slots) (h : Fits k σ) : Pending next cont slots := by
  cases hg
  case eval => exact .eval h
  case quasi => exact .quasi h
  case evalFor _ ha => exact .eval <| ha.fits h
  case quasiFor _ ha => exact .quasi <| ha.fits h
  case apply => exact .apply h
  case quasiFinish => exact .quasiFinish h
  case deliver => exact .deliver h

-- Each checkpoint lies on a stack for the step it goes on with.
def TrapsFit (slots : List Slot) : Prop :=
  ∀ c σ, .trap c :: σ <:+ slots → Fits c.cont σ

namespace TrapsFit

variable {slots : List Slot}

@[simp]
theorem nil : TrapsFit [] := by
  simp [TrapsFit]

theorem cons_iff {slot : Slot} : TrapsFit (slot :: slots) ↔
    (∀ c, slot = .trap c → Fits c.cont slots) ∧ TrapsFit slots := by
  constructor
  case mp =>
    intro h
    refine ⟨?_, fun c σ hs => h c σ <| hs.trans <| List.suffix_cons ..⟩
    rintro c rfl
    exact h c slots List.suffix_rfl
  case mpr =>
    intro ⟨hc, h⟩ c σ hs
    cases List.suffix_cons_iff.mp hs
    case inl he =>
      injection he with he hσ
      exact hσ ▸ hc c he.symm
    case inr hs => exact h c σ hs

@[simp]
theorem value_cons_iff {v : Value} : TrapsFit (.value v :: slots) ↔ TrapsFit slots := by
  simp [cons_iff]

@[simp]
theorem env_cons_iff {e : FrameId} : TrapsFit (.env e :: slots) ↔ TrapsFit slots := by
  simp [cons_iff]

@[simp]
theorem step_cons_iff {k : Step} : TrapsFit (.step k :: slots) ↔ TrapsFit slots := by
  simp [cons_iff]

@[simp]
theorem callee_cons_iff {c : Callee} : TrapsFit (.callee c :: slots) ↔ TrapsFit slots := by
  simp [cons_iff]

@[simp]
theorem sentinel_cons_iff : TrapsFit (.sentinel :: slots) ↔ TrapsFit slots := by
  simp [cons_iff]

@[simp]
theorem trap_cons_iff {c : Checkpoint} :
    TrapsFit (.trap c :: slots) ↔ Fits c.cont slots ∧ TrapsFit slots := by
  simp [cons_iff]

@[simp]
theorem values_append_iff {vs : List Value} : TrapsFit (values vs ++ slots) ↔ TrapsFit slots := by
  induction vs
  case nil => rfl
  case cons hi => simpa [values] using hi

end TrapsFit

theorem Fits.trapsFit {k : Step} {σ : List Slot} (h : Fits k σ) : TrapsFit σ := by
  induction h
  case trapDone h hi => simp [h, hi]
  all_goals simp_all

theorem Pending.trapsFit {next k : Step} {σ : List Slot} (h : Pending next k σ) : TrapsFit σ := by
  cases h
  case quasiFinish h => simp [h.trapsFit]
  all_goals exact Fits.trapsFit ‹_›

theorem Pending.fits_of_eval {k : Step} {σ : List Slot} (h : Pending .eval k σ) : Fits k σ := by
  cases h
  case eval h => exact h
  case deliver h => cases h

theorem Pending.fits_of_apply {proc : Value} {k : Step} {σ : List Slot}
    (h : Pending (.apply proc) k σ) : Fits k σ := by
  cases h
  case apply h => exact h
  case deliver h => cases h

theorem Pending.exists_trap {k : Step} {σ : List Slot} (h : Pending .trapDone k σ) :
    ∃ c σ', σ = .trap c :: σ' := by
  cases h
  case deliver h =>
    cases h
    exact ⟨_, _, rfl⟩

namespace Stack

theorem eq_ofSlots (s : Stack) : s = .ofSlots s.slots := by
  obtain ⟨slots, depth, rfl⟩ := s
  rfl

theorem eq_of_slots_eq {s s' : Stack} (h : s.slots = s'.slots) : s = s' := by
  rw [s.eq_ofSlots, s'.eq_ofSlots, h]

theorem unwindSlots_suffix {slots : List Slot} {depth : Nat} {hd : depth = slots.length}
    {c : Checkpoint} {s : Stack} (h : unwindSlots slots depth hd = some (c, s)) :
    .trap c :: s.slots <:+ slots := by
  induction slots generalizing depth
  case nil => cases h
  case cons slot rest hi =>
    cases slot
    case trap =>
      cases h
      exact List.suffix_rfl
    all_goals exact hi h |>.trans <| List.suffix_cons ..

-- What is left after a checkpoint has been found fits the step it goes on with.
theorem fits_of_unwind? {s s' : Stack} {c : Checkpoint} (h : TrapsFit s.slots)
    (hu : s.unwind? = some (c, s')) : Fits c.cont s'.slots :=
  h c s'.slots <| unwindSlots_suffix hu

end Stack
end StepLisp
