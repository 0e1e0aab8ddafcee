import StepLisp.Machine.Basic

namespace StepLisp

-- What the machine complains of if the stack does not hold what a step expects.
def Internal.isStack : Internal → Bool
  | underflow | slot .. | operandSlot _ | templateSlot _ | savedSymbol | templateAtom => true
  | dangling .. | unknownBuiltin _ | unknownGroup _ | output _ | other _ => false

def Fault.isStack : Fault → Bool
  | internal cause => cause.isStack
  | _ => false

-- A fault that says nothing of the stack, of room for cells or of a walk without end.
def Fault.isPlain : Fault → Bool
  | heapExhausted _ | endless => false
  | fault => !fault.isStack

-- Besides plain faults there may be walks without end, and a lack of cells where there are none.
inductive Fault.Admitted (walks full : Prop) : Fault → Prop
  | plain {fault : Fault} : fault.isPlain → Admitted walks full fault
  | endless : walks → Admitted walks full .endless
  | exhausted {n : Nat} : full → Admitted walks full (.heapExhausted n)

namespace Fault.Admitted

variable {walks walks' full full' : Prop} {fault : Fault}

theorem imp (h : fault.Admitted walks full) (hw : walks → walks') (hf : full → full') :
    fault.Admitted walks' full' := by
  cases h
  case plain h => exact .plain h
  case endless h => exact .endless <| hw h
  case exhausted h => exact .exhausted <| hf h

theorem isStack_eq (h : fault.Admitted walks full) : fault.isStack = false := by
  cases h
  case plain h => cases fault <;> simp_all [isPlain]
  all_goals rfl

end Fault.Admitted

-- The faults of a lookup.
def Proper {α : Type} (walks : Prop) (x : Except Fault α) : Prop :=
  ∀ fault, x = .error fault → fault.Admitted walks False

namespace Proper

variable {α β : Type} {walks : Prop} {x : Except Fault α} {f : α → Except Fault β} {fault : Fault}

theorem ok {a : α} : Proper walks (.ok a) :=
  fun _ h => nomatch h

theorem error (h : fault.isPlain) : Proper walks (.error fault : Except Fault α) := by
  rintro _ ⟨⟩
  exact .plain h

theorem admitted {full : Prop} (hx : Proper walks x) (h : x = .error fault) :
    fault.Admitted walks full :=
  (hx fault h).imp id False.elim

theorem imp {walks' : Prop} (hx : Proper walks x) (h : walks → walks') : Proper walks' x :=
  fun fault he => (hx fault he).imp h id

theorem bind (hx : Proper walks x) (hf : ∀ a, Proper walks (f a)) : Proper walks (x >>= f) := by
  cases x
  case ok a => exact hf a
  case error fault =>
    rintro _ ⟨⟩
    exact hx fault rfl

theorem present {kind : Kind} {i : Nat} {a? : Option α} :
    Proper walks (Store.present kind i a?) := by
  cases a?
  case none => exact error rfl
  case some => exact ok

end Proper

namespace Act

variable {σ α β γ : Type} {view : σ → γ} {x : Act σ α} {f : α → Act σ β} {s s' : σ}

theorem bind_of_ok {a : α} (h : x s = .ok a s') : (x >>= f) s = f a s' := by
  simp only [Bind.bind, EStateM.bind, h]

theorem bind_of_error {fault : Fault} (h : x s = .error fault s') :
    (x >>= f) s = .error fault s' := by
  simp only [Bind.bind, EStateM.bind, h]

-- The state that an action leaves behind, whether it succeeds or fails.
def left (x : Act σ α) (s : σ) : σ :=
  match x s with
  | .ok _ s | .error _ s => s

theorem left_of_ok {a : α} (h : x s = .ok a s') : x.left s = s' := by
  simp [left, h]

theorem left_of_error {fault : Fault} (h : x s = .error fault s') : x.left s = s' := by
  simp [left, h]

theorem left_bind_of_ok {a : α} (h : x s = .ok a s') : (x >>= f).left s = (f a).left s' := by
  simp only [left, bind_of_ok h]

theorem left_bind_of_error {fault : Fault} (h : x s = .error fault s') :
    (x >>= f).left s = s' := by
  simp only [left, bind_of_error h]

-- The action changes nothing that `view` shows, and does not complain of the stack.
def Spares (view : σ → γ) (x : Act σ α) : Prop :=
  ∀ s, match x s with
    | .ok _ s' => view s' = view s
    | .error fault s' => view s' = view s ∧ fault.isStack = false

namespace Spares

theorem view_left (h : Spares view x) (s : σ) : view (x.left s) = view s := by
  have hs := h s
  cases hr : x s <;> simp only [hr] at hs
  case ok => exact left_of_ok hr ▸ hs
  case error => exact left_of_error hr ▸ hs.left

theorem comp {δ : Type} (g : γ → δ) (h : Spares view x) : Spares (fun s => g (view s)) x := by
  intro s
  have hs := h s
  cases hr : x s <;> simp only [hr] at hs ⊢
  case ok => rw [hs]
  case error => exact ⟨by rw [hs.left], hs.right⟩

theorem pure (a : α) : Spares view (Pure.pure a) :=
  fun _ => rfl

theorem throw {fault : Fault} (h : fault.isStack = false) :
    Spares view (MonadExcept.throw fault : Act σ α) :=
  fun _ => ⟨rfl, h⟩

theorem get : Spares view (MonadState.get : Act σ σ) :=
  fun _ => rfl

theorem modify {g : σ → σ} (h : ∀ s, view (g s) = view s) :
    Spares view (modify g : Act σ PUnit) :=
  h

theorem bind (hx : Spares view x) (hf : ∀ a, Spares view (f a)) : Spares view (x >>= f) := by
  intro s
  have h₁ := hx s
  simp only [Bind.bind, EStateM.bind]
  cases hr : x s
  case error fault s' => simpa [hr] using h₁
  case ok a s' =>
    simp only [hr] at h₁ ⊢
    have h₂ := hf a s'
    cases hr' : f a s' <;> simp only [hr', h₁] at h₂ ⊢ <;> exact h₂

theorem map {g : α → β} (hx : Spares view x) : Spares view (g <$> x) := by
  intro s
  have h := hx s
  simp only [Functor.map, EStateM.map]
  cases hr : x s <;> simpa [hr] using h

theorem ite {p : Prop} [Decidable p] {y : Act σ α} (hx : Spares view x) (hy : Spares view y) :
    Spares view (if p then x else y) := by
  split <;> assumption

end Spares

-- What an action may do to a state, and in which states it may raise which faults.
structure Rule (σ : Type) where
  allows : σ → σ → Prop
  admits : Fault → σ → Prop
  refl (s : σ) : allows s s
  trans {s t u : σ} : allows s t → allows t u → allows s u

def Obeys (r : Rule σ) (x : Act σ α) : Prop :=
  ∀ s, match x s with
    | .ok _ s' => r.allows s s'
    | .error fault s' => r.allows s s' ∧ r.admits fault s'

namespace Obeys

variable {r : Rule σ}

theorem left (h : Obeys r x) (s : σ) : r.allows s (x.left s) := by
  have hs := h s
  cases hr : x s <;> simp only [hr] at hs
  case ok => exact left_of_ok hr ▸ hs
  case error => exact left_of_error hr ▸ hs.left

theorem admits {fault : Fault} (h : Obeys r x) (hx : x s = .error fault s') :
    r.admits fault s' := by
  have hs := h s
  simp only [hx] at hs
  exact hs.right

theorem imp {r' : Rule σ} (h : Obeys r x) (ha : ∀ s s', r.allows s s' → r'.allows s s')
    (hf : ∀ fault s, r.admits fault s → r'.admits fault s) : Obeys r' x := by
  intro s
  have hs := h s
  cases hr : x s <;> simp only [hr] at hs ⊢
  case ok => exact ha _ _ hs
  case error => exact ⟨ha _ _ hs.left, hf _ _ hs.right⟩

theorem spares (h : Obeys r x) (ha : ∀ s s', r.allows s s' → view s' = view s)
    (hf : ∀ fault s, r.admits fault s → fault.isStack = false) : Spares view x := by
  let sparing : Rule σ := ⟨fun s s' => view s' = view s, fun fault _ => fault.isStack = false,
    fun _ => rfl, fun h h' => h'.trans h⟩
  have hs : Obeys sparing x := h.imp ha hf
  exact hs

theorem pure (a : α) : Obeys r (Pure.pure a) :=
  fun s => r.refl s

theorem throw {fault : Fault} (h : ∀ s, r.admits fault s) :
    Obeys r (MonadExcept.throw fault : Act σ α) :=
  fun s => ⟨r.refl s, h s⟩

theorem get : Obeys r (MonadState.get : Act σ σ) :=
  fun s => r.refl s

theorem get_bind {f : σ → Act σ β}
    (hf : ∀ s, match f s s with
      | .ok _ s' => r.allows s s'
      | .error fault s' => r.allows s s' ∧ r.admits fault s') : Obeys r (MonadState.get >>= f) :=
  hf

theorem modify {g : σ → σ} (h : ∀ s, r.allows s (g s)) : Obeys r (modify g : Act σ PUnit) :=
  h

theorem bind (hx : Obeys r x) (hf : ∀ a, Obeys r (f a)) : Obeys r (x >>= f) := by
  intro s
  have h₁ := hx s
  simp only [Bind.bind, EStateM.bind]
  cases hr : x s <;> simp only [hr] at h₁ ⊢
  case error => exact h₁
  case ok a s' =>
    have h₂ := hf a s'
    cases hr' : f a s' <;> simp only [hr'] at h₂ ⊢
    case ok => exact r.trans h₁ h₂
    case error => exact ⟨r.trans h₁ h₂.left, h₂.right⟩

theorem discard (hx : Obeys r x) : Obeys r (Functor.discard x) := by
  intro s
  have h := hx s
  simp only [Functor.discard, Functor.mapConst, EStateM.map, Function.comp_apply]
  cases hr : x s <;> simpa only [hr] using h

theorem ite {p : Prop} [Decidable p] {y : Act σ α} (hx : Obeys r x) (hy : Obeys r y) :
    Obeys r (if p then x else y) := by
  split <;> assumption

theorem mapM {g : α → Act σ β} (h : ∀ a, Obeys r (g a)) (as : List α) :
    Obeys r (as.mapM g) := by
  induction as
  case nil => exact pure []
  case cons a as hi =>
    rw [List.mapM_cons]
    exact (h a).bind fun _ => hi.bind fun _ => pure _

theorem forM {g : α → Act σ PUnit} (h : ∀ a, Obeys r (g a)) (as : List α) :
    Obeys r (forIn as PUnit.unit fun a _ => do g a; Pure.pure (.yield PUnit.unit)) := by
  induction as
  case nil => exact pure _
  case cons a as hi =>
    rw [List.forIn_cons]
    exact ((h a).bind fun _ => pure _).bind fun
      | .yield _ => hi
      | .done _ => pure _

end Obeys
end Act
end StepLisp
