import StepLisp.Proofs.Renaming.Machine

namespace StepLisp.Machine

open Act

variable {exact : Prop} {ρ : Renaming} {v v' w w' : Value} {k k' : Step} {e e' : FrameId}
variable {α : Type} {A : Renaming → α → α → Prop}

theorem get_respects {f f' : Machine → Run α}
    (h : ∀ m m', m.Alike exact ρ m' → Respects (likeness exact) ρ (f m) (f' m') A) :
    Respects (likeness exact) ρ (get >>= f) (get >>= f') A :=
  fun m m' hm => h m m' hm m m' hm

theorem query_steady {R : α → α → Prop} {f f' : Store → α}
    (h : ∀ s s', s.Alike exact ρ s' → R (f s) (f' s')) :
    Steady (likeness exact) ρ (query f) (query f') R :=
  fun m m' hm => .ok (le_refl ρ) hm ⟨rfl, h m.image.store m'.image.store hm.image.store⟩

theorem queryOrFail_steady {R : α → α → Prop} {f f' : Store → Except Fault α}
    (h : ∀ s s', s.Alike exact ρ s' → Matches R (f s) (f' s')) :
    Steady (likeness exact) ρ (queryOrFail f) (queryOrFail f') R := by
  intro m m' hm
  have hs := h m.image.store m'.image.store hm.image.store
  simp only [queryOrFail]
  generalize f m.image.store = r, f' m'.image.store = r' at hs
  cases hs
  case ok h => exact .ok (le_refl ρ) hm ⟨rfl, h⟩
  case error h => exact .fault (le_refl ρ) (.refl h) hm

theorem uncons?_steady (hv : v.Alike ρ v') :
    Steady (likeness exact) ρ (query (·.uncons? v)) (query (·.uncons? v'))
      (Option.Rel fun p p' => p.1.Alike ρ p'.1 ∧ p.2.Alike ρ p'.2) :=
  query_steady fun _ _ h => h.uncons? hv

theorem toList?_steady (hv : v.Alike ρ v') :
    Steady (likeness exact) ρ (query (·.toList? v)) (query (·.toList? v'))
      (Option.Rel (List.Forall₂ (Value.Alike ρ))) :=
  query_steady fun _ _ h => h.toList? hv

-- Texts are the same on both sides.
theorem write_steady (hv : v.Alike ρ v') : Steady (likeness exact) ρ (write v) (write v') Eq :=
  fun _ _ hm => .ok (le_refl ρ) hm ⟨rfl, hm.image.print hv⟩

theorem display_steady (hv : v.Alike ρ v') :
    Steady (likeness exact) ρ (display v) (display v') Eq :=
  fun _ _ hm => .ok (le_refl ρ) hm ⟨rfl, hm.image.print hv⟩

theorem write_bind {f f' : String → Run α} (hv : v.Alike ρ v')
    (h : ∀ text, Respects (likeness exact) ρ (f text) (f' text) A) :
    Respects (likeness exact) ρ (write v >>= f) (write v' >>= f') A :=
  (write_steady hv).bind fun text _ ht => ht ▸ h text

-- Registers

theorem argl_steady : Steady (likeness exact) ρ argl argl (Value.Alike ρ) :=
  fun _ _ hm => .ok (le_refl ρ) hm ⟨rfl, hm.control.argl⟩

theorem val_steady : Steady (likeness exact) ρ val val (Value.Alike ρ) :=
  fun _ _ hm => .ok (le_refl ρ) hm ⟨rfl, hm.control.val⟩

theorem env_steady : Steady (likeness exact) ρ env env fun e e' => ρ e.ref e'.ref :=
  fun _ _ hm => .ok (le_refl ρ) hm ⟨rfl, hm.control.env⟩

theorem setEnv_steady (he : ρ e.ref e'.ref) :
    Steady (likeness exact) ρ (setEnv e) (setEnv e') fun _ _ => True :=
  fun _ _ hm => .ok (le_refl ρ) { hm with control := hm.control.setEnv he } ⟨rfl, trivial⟩

theorem setCont_steady (hk : k.Alike ρ k') :
    Steady (likeness exact) ρ (setCont k) (setCont k') fun _ _ => True :=
  fun _ _ hm => .ok (le_refl ρ) { hm with control := hm.control.setCont hk } ⟨rfl, trivial⟩

theorem setVal_steady (hv : v.Alike ρ v') :
    Steady (likeness exact) ρ (setVal v) (setVal v') fun _ _ => True :=
  fun _ _ hm => .ok (le_refl ρ) { hm with control := hm.control.setVal hv } ⟨rfl, trivial⟩

theorem setArgl_steady (hv : v.Alike ρ v') :
    Steady (likeness exact) ρ (setArgl v) (setArgl v') fun _ _ => True :=
  fun _ _ hm => .ok (le_refl ρ) { hm with control := hm.control.setArgl hv } ⟨rfl, trivial⟩

-- The stack

theorem push_steady {slot slot' : Slot} (h : slot.Alike ρ slot') :
    Steady (likeness exact) ρ (liftM (Control.push slot)) (liftM (Control.push slot'))
      fun _ _ => True :=
  onControl_steady <| Control.push_steady h

theorem save_steady :
    Steady (likeness exact) ρ (liftM Control.save) (liftM Control.save) fun _ _ => True :=
  onControl_steady Control.save_steady

theorem popValue_steady :
    Steady (likeness exact) ρ (liftM Control.popValue) (liftM Control.popValue) (Value.Alike ρ) :=
  onControl_steady Control.popValue_steady

theorem peekEnv_steady : Steady (likeness exact) ρ (liftM Control.peekEnv) (liftM Control.peekEnv)
    fun e e' => ρ e.ref e'.ref :=
  onControl_steady Control.peekEnv_steady

theorem restore_steady :
    Steady (likeness exact) ρ (liftM Control.restore) (liftM Control.restore) fun _ _ => True :=
  onControl_steady Control.restore_steady

-- Ways for a transition to end

theorem deliver_respects (hv : v.Alike ρ v') :
    Respects (likeness exact) ρ (deliver v) (deliver v') Step.Alike :=
  fun _ _ hm => .ok (le_refl ρ) { hm with control := hm.control.setVal hv } hm.control.cont

theorem proceed_respects : Respects (likeness exact) ρ proceed proceed Step.Alike :=
  fun _ _ hm => .ok (le_refl ρ) hm hm.control.cont

theorem evaluate_respects (hv : v.Alike ρ v') :
    Respects (likeness exact) ρ (evaluate v) (evaluate v') Step.Alike :=
  fun _ _ hm => .ok (le_refl ρ) { hm with control := hm.control.setExp hv } <| .same rfl

theorem evaluateFor_respects (hk : k.Alike ρ k') (hv : v.Alike ρ v') :
    Respects (likeness exact) ρ (evaluateFor k v) (evaluateFor k' v') Step.Alike :=
  fun _ _ hm => .ok (le_refl ρ) { hm with control := (hm.control.setExp hv).setCont hk } <|
    .same rfl

theorem applyTo_respects (hv : v.Alike ρ v') (hw : w.Alike ρ w') :
    Respects (likeness exact) ρ (applyTo v w) (applyTo v' w') Step.Alike :=
  fun _ _ hm => .ok (le_refl ρ) { hm with control := hm.control.setArgl hv } <| .apply hw

-- Scopes and operands

theorem lookup_steady {x : Symbol} :
    Steady (likeness exact) ρ (lookup x) (lookup x) (Value.Alike ρ) := by
  intro m m' hm
  have hl := hm.image.store.lookup? (x := x) hm.control.env
  simp only [lookup, hm.image.symbols]
  generalize m.image.store.lookup? _ x = r, m'.image.store.lookup? _ x = r' at hl
  cases hl
  case error h => exact .fault (le_refl ρ) (.refl h) hm
  case ok h =>
    cases h
    case some h => exact .ok (le_refl ρ) hm ⟨rfl, h⟩
    case none => exact .fault (le_refl ρ) (.refl rfl) hm

theorem define_steady {x : Symbol} (hv : v.Alike ρ v') :
    Steady (likeness exact) ρ (define x v) (define x v') fun _ _ => True :=
  env_steady.steady_bind fun _ _ he => onStore_respects <| Store.define_steady he hv

theorem single_steady (hv : v.Alike ρ v') :
    Steady (likeness exact) ρ (single v) (single v') (Value.Alike ρ) := by
  refine (uncons?_steady hv).steady_bind fun p p' hp => ?_
  cases hp
  case none => exact write_bind hv fun _ => .throw rfl
  case some p p' hp =>
    obtain ⟨car, cdr⟩ := p
    obtain ⟨car', cdr'⟩ := p'
    have ⟨hcar, hcdr⟩ := hp
    cases hcdr
    case nil => exact .pure hcar
    all_goals exact write_bind hv fun _ => .throw rfl

theorem symbolOperand_steady (hv : v.Alike ρ v') :
    Steady (likeness exact) ρ (symbolOperand v) (symbolOperand v') Eq := by
  have ht := hv
  cases hv
  case symbol => exact .pure rfl
  all_goals exact write_bind ht fun _ => .throw rfl

theorem atLeastTwo_steady {form : Builtin} (hv : v.Alike ρ v') :
    Steady (likeness exact) ρ (atLeastTwo form v) (atLeastTwo form v')
      fun p p' => p.1.Alike ρ p'.1 ∧ p.2.Alike ρ p'.2 := by
  refine (uncons?_steady hv).steady_bind fun p p' hp => ?_
  cases hp
  case none => exact .throw rfl
  case some p p' hp =>
    obtain ⟨car, cdr⟩ := p
    obtain ⟨car', cdr'⟩ := p'
    have ⟨hcar, hcdr⟩ := hp
    cases hcdr
    case pair hi => exact .pure ⟨hcar, .pair hi⟩
    all_goals exact .throw rfl

theorem isSpecial_matches {s s' : Store} (h : s.Alike exact ρ s') (hv : v.Alike ρ v') :
    Matches Eq (isSpecial s v) (isSpecial s' v') := by
  cases hv
  case builtin id =>
    simp only [isSpecial]
    cases Builtin.ofId? id
    case none => exact .error rfl
    case some => exact .ok rfl
  case closure hi =>
    have ⟨c, c', hc, hc', hl⟩ := h.closure hi
    simp only [isSpecial, Store.closure_of_object? hc, Store.closure_of_object? hc']
    exact .ok hl.special
  case continuation hi =>
    have ⟨k, k', hk, hk', hl⟩ := h.continuation hi
    simp only [isSpecial, Store.continuation_of_object? hk, Store.continuation_of_object? hk']
    exact .ok hl.special
  all_goals exact .ok rfl

end StepLisp.Machine
