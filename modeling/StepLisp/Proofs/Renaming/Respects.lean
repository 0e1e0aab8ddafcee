import StepLisp.Proofs.Act
import StepLisp.Proofs.Renaming.Alike

namespace StepLisp

-- What a machine complains of if a handle leads nowhere.
def Fault.isDangling : Fault → Bool
  | internal (.dangling ..) => true
  | _ => false

namespace Fault

-- The same fault. With leniency two complaints of the stack may differ, since they show a slot.
structure Alike (lenient : Prop) (fault fault' : Fault) : Prop where
  eq_or_isStack : fault = fault' ∨ lenient ∧ fault.isStack ∧ fault'.isStack
  not_isDangling : fault.isDangling = false

namespace Alike

variable {lenient lenient' : Prop} {fault fault' : Fault}

theorem refl (h : fault.isDangling = false) : fault.Alike lenient fault :=
  ⟨.inl rfl, h⟩

theorem imp (h : fault.Alike lenient fault') (hl : lenient → lenient') :
    fault.Alike lenient' fault' :=
  ⟨h.eq_or_isStack.imp_right <| And.imp_left hl, h.not_isDangling⟩

theorem eq (h : fault.Alike lenient fault') (hs : lenient → fault.isStack = false) :
    fault = fault' :=
  h.eq_or_isStack.resolve_right fun ⟨hl, h, _⟩ => Bool.eq_false_iff.mp (hs hl) h

theorem stack {cause cause' : Internal} (h : cause.isStack) (h' : cause'.isStack) :
    (internal cause).Alike True (internal cause') := by
  refine ⟨.inr ⟨trivial, h, h'⟩, ?_⟩
  cases cause <;> first | rfl | cases h

end Alike
end Fault

-- Lookups that are alike: both fail for the same reason, or both find something.
inductive Matches {α : Type} (R : α → α → Prop) : Except Fault α → Except Fault α → Prop
  | ok {a a' : α} : R a a' → Matches R (.ok a) (.ok a')
  | error {fault : Fault} : fault.isDangling = false → Matches R (.error fault) (.error fault)

theorem Matches.bind {α β : Type} {R : α → α → Prop} {S : β → β → Prop} {x x' : Except Fault α}
    {f f' : α → Except Fault β} (hx : Matches R x x')
    (hf : ∀ a a', R a a' → Matches S (f a) (f' a')) : Matches S (x >>= f) (x' >>= f') := by
  cases hx
  case ok h => exact hf _ _ h
  case error h => exact .error h

structure Likeness (σ : Type) where
  exact : Prop
  lenient : Prop
  alike : Renaming → σ → σ → Prop
  -- What is left of it after a fault that nothing catches.
  idle : Renaming → σ → σ → Prop

variable {σ α β : Type} {L : Likeness σ} {ρ τ : Renaming}
variable {A : Renaming → α → α → Prop} {B : Renaming → β → β → Prop}

inductive Agree (L : Likeness σ) (ρ : Renaming) (A : Renaming → α → α → Prop) :
    EStateM.Result Fault σ α → EStateM.Result Fault σ α → Prop
  | ok {τ a a' s s'} : ρ ≤ τ → L.alike τ s s' → A τ a a' → Agree L ρ A (.ok a s) (.ok a' s')
  | fault {τ fault fault' s s'} : ρ ≤ τ → fault.Alike L.lenient fault' → L.alike τ s s' →
    Agree L ρ A (.error fault s) (.error fault' s')
  | fatal {τ fault s s'} : fault.isCatchable = false → L.idle τ s s' →
    Agree L ρ A (.error fault s) (.error fault s')
  -- How much room there is depends on what has been collected.
  | exhausted {n s r} : ¬L.exact → Agree L ρ A (.error (.heapExhausted n) s) r
  | exhausted' {n s r} : ¬L.exact → Agree L ρ A r (.error (.heapExhausted n) s)

theorem Agree.imp {A' : Renaming → α → α → Prop} {r r' : EStateM.Result Fault σ α}
    (h : Agree L τ A r r') (hρ : ρ ≤ τ) (ha : ∀ υ a a', τ ≤ υ → A υ a a' → A' υ a a') :
    Agree L ρ A' r r' := by
  cases h
  case ok hτ hs h => exact .ok (hρ.trans hτ) hs <| ha _ _ _ hτ h
  case fault hτ hf hs => exact .fault (hρ.trans hτ) hf hs
  case fatal hc hs => exact .fatal hc hs
  case exhausted h => exact .exhausted h
  case exhausted' h => exact .exhausted' h

-- A weaker likeness.
theorem Agree.weaken {L' : Likeness σ} {r r' : EStateM.Result Fault σ α} (h : Agree L ρ A r r')
    (hx : L'.exact = L.exact) (hl : L.lenient → L'.lenient)
    (ha : ∀ τ s s', L.alike τ s s' → L'.alike τ s s')
    (hi : ∀ τ s s', L.idle τ s s' → L'.idle τ s s') : Agree L' ρ A r r' := by
  cases h
  case ok hρ hs h => exact .ok hρ (ha _ _ _ hs) h
  case fault hρ hf hs => exact .fault hρ (hf.imp hl) (ha _ _ _ hs)
  case fatal hc hs => exact .fatal hc (hi _ _ _ hs)
  case exhausted h => exact .exhausted (hx ▸ h)
  case exhausted' h => exact .exhausted' (hx ▸ h)

-- Leniency is for nothing where the stack is not complained of.
theorem Agree.strict {r r' : EStateM.Result Fault σ α} (h : Agree L ρ A r r')
    (hp : ∀ fault s, r = .error fault s → fault.isStack = false) :
    Agree { L with lenient := False } ρ A r r' := by
  cases h
  case ok hρ hs h => exact .ok hρ hs h
  case fault hρ hf hs =>
    cases hf.eq fun _ => hp _ _ rfl
    exact .fault hρ (.refl hf.not_isDangling) hs
  case fatal hc hs => exact .fatal hc hs
  case exhausted h => exact .exhausted h
  case exhausted' h => exact .exhausted' h

def Respects (L : Likeness σ) (ρ : Renaming) (x x' : Act σ α)
    (A : Renaming → α → α → Prop) : Prop :=
  ∀ s s', L.alike ρ s s' → Agree L ρ A (x s) (x' s')

variable {x x' : Act σ α} {f f' : α → Act σ β}

-- What follows two actions may depend on the very states that they lead to.
theorem Agree.bind_of_ok {s s' : σ} (h : Agree L τ A (x s) (x' s')) (hρ : ρ ≤ τ)
    (hf : ∀ υ a a' t t', x s = .ok a t → x' s' = .ok a' t' → τ ≤ υ → A υ a a' → L.alike υ t t' →
      Agree L ρ B (f a t) (f' a' t')) : Agree L ρ B ((x >>= f) s) ((x' >>= f') s') := by
  simp only [Bind.bind, EStateM.bind]
  generalize x s = r, x' s' = r' at h hf
  cases h
  case ok hτ hs ha => exact hf _ _ _ _ _ rfl rfl hτ ha hs
  case fault hτ hl hs => exact .fault (hρ.trans hτ) hl hs
  case fatal hc hs => exact .fatal hc hs
  case exhausted h => exact .exhausted h
  case exhausted' h => exact .exhausted' h

theorem Agree.bind {s s' : σ} (h : Agree L ρ A (x s) (x' s'))
    (hf : ∀ τ a a', ρ ≤ τ → A τ a a' → Respects L τ (f a) (f' a') B) :
    Agree L ρ B ((x >>= f) s) ((x' >>= f') s') :=
  h.bind_of_ok (le_refl ρ) fun _ _ _ _ _ _ _ hτ ha hs =>
    (hf _ _ _ hτ ha _ _ hs).imp hτ fun _ _ _ _ => id

namespace Respects

theorem pure {a a' : α} (h : A ρ a a') : Respects L ρ (Pure.pure a) (Pure.pure a') A :=
  fun _ _ hs => .ok (le_refl ρ) hs h

theorem fail {fault fault' : Fault} (h : fault.Alike L.lenient fault') :
    Respects L ρ (MonadExcept.throw fault) (MonadExcept.throw fault') A :=
  fun _ _ hs => .fault (le_refl ρ) h hs

theorem throw {fault : Fault} (h : fault.isDangling = false) :
    Respects L ρ (MonadExcept.throw fault) (MonadExcept.throw fault) A :=
  fail <| .refl h

theorem bind (hx : Respects L ρ x x' A)
    (hf : ∀ τ a a', ρ ≤ τ → A τ a a' → Respects L τ (f a) (f' a') B) :
    Respects L ρ (x >>= f) (x' >>= f') B :=
  fun s s' hs => (hx s s' hs).bind hf

theorem weaken {A' : Renaming → α → α → Prop} (hx : Respects L ρ x x' A)
    (h : ∀ τ a a', ρ ≤ τ → A τ a a' → A' τ a a') : Respects L ρ x x' A' :=
  fun s s' hs => (hx s s' hs).imp (le_refl ρ) h

theorem ite {c c' : Prop} [Decidable c] [Decidable c'] {y y' : Act σ α} (hc : c ↔ c')
    (hx : Respects L ρ x x' A) (hy : Respects L ρ y y' A) :
    Respects L ρ (if c then x else y) (if c' then x' else y') A := by
  by_cases h : c
  case pos => rwa [if_pos h, if_pos (hc.mp h)]
  case neg => rwa [if_neg h, if_neg (hc.not.mp h)]

variable {R : Renaming → α → α → Prop} {as as' : List α} (hR : Monotone R)
include hR

theorem mapM (hr : List.Forall₂ (R ρ) as as') (hB : Monotone B)
    (hf : ∀ τ a a', R τ a a' → Respects L τ (f a) (f' a') B) :
    Respects L ρ (as.mapM f) (as'.mapM f') fun τ => List.Forall₂ (B τ) := by
  induction as generalizing as' ρ <;> cases hr
  case nil => exact pure .nil
  case cons hi _ _ h hr =>
    rw [List.mapM_cons, List.mapM_cons]
    refine (hf _ _ _ h).bind fun τ b b' hρ hb => ?_
    refine (hi <| hr.imp <| hR hρ).bind fun υ bs bs' hτ hbs => ?_
    exact pure <| .cons (hB hτ _ _ hb) hbs

theorem forIn {g g' : α → Act σ PUnit} (hr : List.Forall₂ (R ρ) as as')
    (hg : ∀ τ a a', R τ a a' → Respects L τ (g a) (g' a') fun _ _ _ => True) :
    Respects L ρ (ForIn.forIn as PUnit.unit fun a _ => do g a; Pure.pure (.yield PUnit.unit))
      (ForIn.forIn as' PUnit.unit fun a _ => do g' a; Pure.pure (.yield PUnit.unit))
      fun _ _ _ => True := by
  induction as generalizing as' ρ <;> cases hr
  case nil => exact pure trivial
  case cons hi _ _ h hr =>
    rw [List.forIn_cons, List.forIn_cons, bind_assoc, bind_assoc]
    exact (hg _ _ _ h).bind fun τ _ _ hρ _ => hi <| hr.imp <| hR hρ

end Respects

-- The same without allocation: the renaming stays as it is.
def Steady (L : Likeness σ) (ρ : Renaming) (x x' : Act σ α) (A : α → α → Prop) : Prop :=
  Respects L ρ x x' fun τ a a' => τ = ρ ∧ A a a'

namespace Steady

variable {A : α → α → Prop}

theorem pure {a a' : α} (h : A a a') : Steady L ρ (Pure.pure a) (Pure.pure a') A :=
  Respects.pure ⟨rfl, h⟩

theorem throw {fault : Fault} (h : fault.isDangling = false) :
    Steady L ρ (MonadExcept.throw fault) (MonadExcept.throw fault) A :=
  Respects.throw h

theorem bind (hx : Steady L ρ x x' A) (hf : ∀ a a', A a a' → Respects L ρ (f a) (f' a') B) :
    Respects L ρ (x >>= f) (x' >>= f') B :=
  Respects.bind hx fun _ a a' _ ⟨hτ, ha⟩ => hτ ▸ hf a a' ha

theorem steady_bind {B : β → β → Prop} (hx : Steady L ρ x x' A)
    (hf : ∀ a a', A a a' → Steady L ρ (f a) (f' a') B) : Steady L ρ (x >>= f) (x' >>= f') B :=
  hx.bind hf

theorem respects {A' : Renaming → α → α → Prop} (hx : Steady L ρ x x' A)
    (h : ∀ a a', A a a' → A' ρ a a') : Respects L ρ x x' A' :=
  hx.weaken fun _ a a' _ ⟨hτ, ha⟩ => hτ ▸ h a a' ha

theorem mapM {R : α → α → Prop} {S : β → β → Prop} {as as' : List α}
    (hr : List.Forall₂ R as as') (hf : ∀ a a', R a a' → Steady L ρ (f a) (f' a') S) :
    Steady L ρ (as.mapM f) (as'.mapM f') (List.Forall₂ S) := by
  induction hr
  case nil => exact pure .nil
  case cons h _ hi =>
    rw [List.mapM_cons, List.mapM_cons]
    exact (hf _ _ h).steady_bind fun _ _ hb => hi.steady_bind fun _ _ hbs => pure (.cons hb hbs)

theorem ofMatches {x x' : Except Fault α} (h : Matches A x x') :
    Steady L ρ (Act.ofExcept x) (Act.ofExcept x') A := by
  cases h
  case ok h => exact pure h
  case error h => exact throw h

end Steady
end StepLisp
