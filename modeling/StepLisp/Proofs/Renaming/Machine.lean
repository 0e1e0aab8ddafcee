import StepLisp.Machine.Operand
import StepLisp.Proofs.Renaming.Image

namespace StepLisp

open Act

variable {exact : Prop} {ρ τ : Renaming} {v v' : Value} {k k' : Step} {e e' : FrameId}
variable {slot slot' : Slot} {α β : Type}

namespace Control

structure Alike (exact : Prop) (ρ : Renaming) (c c' : Control) : Prop where
  exp : c.exp.Alike ρ c'.exp
  env : ρ c.env.ref c'.env.ref
  cont : c.cont.Alike ρ c'.cont
  val : c.val.Alike ρ c'.val
  argl : c.argl.Alike ρ c'.argl
  slots : List.Forall₂ (Slot.Alike ρ) c.stack.slots c'.stack.slots
  same : exact → c = c' ∧ ρ ≤ Eq

namespace Alike

variable {c c' : Control} (h : c.Alike exact ρ c')
include h

theorem mono (hρ : ρ ≤ τ) (hτ : exact → τ ≤ Eq) : c.Alike exact τ c' where
  exp := h.exp.mono hρ
  env := hρ _ _ h.env
  cont := h.cont.mono hρ
  val := h.val.mono hρ
  argl := h.argl.mono hρ
  slots := h.slots.imp fun _ _ hs => hs.mono hρ
  same he := ⟨(h.same he).left, hτ he⟩

theorem depth_eq : c.stack.depth = c'.stack.depth := by
  rw [c.stack.depth_eq, c'.stack.depth_eq, h.slots.length_eq]

theorem same_update {f f' : Control → Control} (hf : ρ ≤ Eq → f = f') (he : exact) :
    f c = f' c' ∧ ρ ≤ Eq := by
  have ⟨hc, hρ⟩ := h.same he
  exact ⟨by rw [hc, hf hρ], hρ⟩

theorem setExp (hv : v.Alike ρ v') : { c with exp := v }.Alike exact ρ { c' with exp := v' } :=
  { h with
    exp := hv
    same := h.same_update (f := ({ · with exp := v })) fun hρ => by rw [hv.eq_of_le hρ] }

theorem setEnv (he : ρ e.ref e'.ref) : { c with env := e }.Alike exact ρ { c' with env := e' } :=
  { h with
    env := he
    same := h.same_update (f := ({ · with env := e }))
      fun hρ => by rw [Handle.ref_inj.mp <| hρ _ _ he] }

theorem setCont (hk : k.Alike ρ k') : { c with cont := k }.Alike exact ρ { c' with cont := k' } :=
  { h with
    cont := hk
    same := h.same_update (f := ({ · with cont := k })) fun hρ => by rw [hk.eq_of_le hρ] }

theorem setVal (hv : v.Alike ρ v') : { c with val := v }.Alike exact ρ { c' with val := v' } :=
  { h with
    val := hv
    same := h.same_update (f := ({ · with val := v })) fun hρ => by rw [hv.eq_of_le hρ] }

theorem setArgl (hv : v.Alike ρ v') : { c with argl := v }.Alike exact ρ { c' with argl := v' } :=
  { h with
    argl := hv
    same := h.same_update (f := ({ · with argl := v })) fun hρ => by rw [hv.eq_of_le hρ] }

-- A new stack; the high-water mark follows it in some way.
theorem setStack {t t' : Stack} (g : Nat → Stack → Nat)
    (ht : List.Forall₂ (Slot.Alike ρ) t.slots t'.slots) :
    { c with stack := t, highWater := g c.highWater t }.Alike exact ρ
      { c' with stack := t', highWater := g c'.highWater t' } := by
  refine { h with slots := ht, same := fun he => ?_ }
  have ⟨hc, hρ⟩ := h.same he
  have hs := Slot.Alike.list_eq_of_le ht hρ
  have ht : t = t' := Stack.ext hs <| by rw [t.depth_eq, t'.depth_eq, hs]
  exact ⟨by rw [hc, ht], hρ⟩

theorem pushed (hs : slot.Alike ρ slot') : (c.pushed slot).Alike exact ρ (c'.pushed slot') :=
  h.setStack (fun n t => max n t.depth) <| .cons hs h.slots

end Alike

-- Here the renaming is fixed: the registers and the stack allocate nothing.
def likeness (exact : Prop) (ρ : Renaming) : Likeness Control where
  exact := exact
  lenient := True
  alike _ := Alike exact ρ
  idle _ _ _ := False

theorem push_steady (h : slot.Alike ρ slot') :
    Steady (likeness exact ρ) ρ (push slot) (push slot') fun _ _ => True :=
  fun _ _ hc => .ok (le_refl ρ) (Alike.pushed hc h) ⟨rfl, trivial⟩

theorem save_steady : Steady (likeness exact ρ) ρ save save fun _ _ => True :=
  fun _ _ hc => .ok (le_refl ρ) ((Alike.pushed hc <| .step hc.cont).pushed <| .env hc.env)
    ⟨rfl, trivial⟩

theorem pop_steady : Steady (likeness exact ρ) ρ pop pop (Slot.Alike ρ) := by
  intro c c' hc
  have hs := hc.slots
  rcases hst : c.stack with ⟨slots, depth, hd⟩
  rcases hst' : c'.stack with ⟨slots', depth', hd'⟩
  simp only [hst, hst'] at hs
  cases hs
  case nil =>
    simp only [pop, hst, hst', Stack.pop?]
    exact .fault (le_refl ρ) (.refl rfl) hc
  case cons h hs =>
    simp only [pop, hst, hst', Stack.pop?]
    exact .ok (le_refl ρ) (hc.setStack (fun n _ => n) hs) ⟨rfl, h⟩

theorem popValue_steady : Steady (likeness exact ρ) ρ popValue popValue (Value.Alike ρ) := by
  refine pop_steady.steady_bind fun slot slot' h => ?_
  cases h
  case value h => exact .pure h
  all_goals exact .fail <| .stack rfl rfl

theorem popEnv_steady :
    Steady (likeness exact ρ) ρ popEnv popEnv fun e e' => ρ e.ref e'.ref := by
  refine pop_steady.steady_bind fun slot slot' h => ?_
  cases h
  case env h => exact .pure h
  all_goals exact .fail <| .stack rfl rfl

theorem popStep_steady : Steady (likeness exact ρ) ρ popStep popStep (Step.Alike ρ) := by
  refine pop_steady.steady_bind fun slot slot' h => ?_
  cases h
  case step h => exact .pure h
  all_goals exact .fail <| .stack rfl rfl

theorem popCallee_steady :
    Steady (likeness exact ρ) ρ popCallee popCallee (Callee.Alike ρ) := by
  refine pop_steady.steady_bind fun slot slot' h => ?_
  cases h
  case callee h => exact .pure h
  all_goals exact .fail <| .stack rfl rfl

theorem popCheckpoint_steady : Steady (likeness exact ρ) ρ popCheckpoint popCheckpoint
    fun c c' => ρ c.env.ref c'.env.ref ∧ c.cont.Alike ρ c'.cont := by
  refine pop_steady.steady_bind fun slot slot' h => ?_
  cases h
  case trap he hk => exact .pure ⟨he, hk⟩
  all_goals exact .fail <| .stack rfl rfl

theorem restore_steady : Steady (likeness exact ρ) ρ restore restore fun _ _ => True := by
  refine popEnv_steady.steady_bind fun e e' he => ?_
  refine Steady.steady_bind (A := fun _ _ => True) ?_ fun _ _ _ => ?_
  · exact fun _ _ hc => .ok (le_refl ρ) (Alike.setEnv hc he) ⟨rfl, trivial⟩
  refine popStep_steady.steady_bind fun k k' hk => ?_
  exact fun _ _ hc => .ok (le_refl ρ) (Alike.setCont hc hk) ⟨rfl, trivial⟩

theorem peekEnv_steady :
    Steady (likeness exact ρ) ρ peekEnv peekEnv fun e e' => ρ e.ref e'.ref := by
  intro c c' hc
  have hs := hc.slots
  simp only [peekEnv, Stack.top?]
  generalize c.stack.slots = slots, c'.stack.slots = slots' at hs
  cases hs
  case nil => exact .fault (le_refl ρ) (.refl rfl) hc
  case cons h _ =>
    cases h
    case env h => exact .ok (le_refl ρ) hc ⟨rfl, h⟩
    all_goals exact .fault (le_refl ρ) (.stack rfl rfl) hc

theorem resume_steady {t t' : Stack} (h : List.Forall₂ (Slot.Alike ρ) t.slots t'.slots) :
    Steady (likeness exact ρ) ρ (resume t) (resume t') fun _ _ => True :=
  fun _ _ hc => .ok (le_refl ρ) (Alike.setStack hc (fun n t => max n t.depth) h) ⟨rfl, trivial⟩

theorem unwindSlots_alike {slots slots' : List Slot} {n n' : Nat} {hn : n = slots.length}
    {hn' : n' = slots'.length} (h : List.Forall₂ (Slot.Alike ρ) slots slots') :
    Option.Rel (fun p p' => (ρ p.1.env.ref p'.1.env.ref ∧ p.1.cont.Alike ρ p'.1.cont) ∧
        List.Forall₂ (Slot.Alike ρ) p.2.slots p'.2.slots)
      (Stack.unwindSlots slots n hn) (Stack.unwindSlots slots' n' hn') := by
  induction h generalizing n n'
  case nil => exact .none
  case cons h hs hi =>
    cases h
    case trap he hk => exact .some ⟨⟨he, hk⟩, hs⟩
    all_goals exact hi

theorem unwind?_alike {t t' : Stack} (h : List.Forall₂ (Slot.Alike ρ) t.slots t'.slots) :
    Option.Rel (fun p p' => (ρ p.1.env.ref p'.1.env.ref ∧ p.1.cont.Alike ρ p'.1.cont) ∧
        List.Forall₂ (Slot.Alike ρ) p.2.slots p'.2.slots) t.unwind? t'.unwind? :=
  unwindSlots_alike h

theorem unwind_steady : Steady (likeness exact ρ) ρ unwind unwind
    (Option.Rel fun c c' => ρ c.env.ref c'.env.ref ∧ c.cont.Alike ρ c'.cont) := by
  intro c c' hc
  have hs := unwind?_alike hc.slots
  simp only [unwind]
  generalize c.stack.unwind? = r, c'.stack.unwind? = r' at hs
  cases hs
  case none => exact .ok (le_refl ρ) hc ⟨rfl, .none⟩
  case some h => exact .ok (le_refl ρ) (hc.setStack (fun n _ => n) h.right) ⟨rfl, .some h.left⟩

end Control

namespace Machine

variable {m m' : Machine}

-- What a machine is apart from its control state.
structure Idle (exact : Prop) (ρ : Renaming) (m m' : Machine) : Prop where
  image : m.image.Alike exact ρ m'.image
  global : ρ m.global.ref m'.global.ref
  maxSteps : m.settings.maxSteps = m'.settings.maxSteps
  generator : m.generator = m'.generator
  clock : m.clock = m'.clock
  output : m.output = m'.output
  steps : m.steps = m'.steps

structure Alike (exact : Prop) (ρ : Renaming) (m m' : Machine) : Prop
    extends Idle exact ρ m m' where
  control : m.control.Alike exact ρ m'.control

def likeness (exact : Prop) : Likeness Machine where
  exact := exact
  lenient := True
  alike := Alike exact
  idle := Idle exact

theorem Alike.setImage {image image' : Image} (h : m.Alike exact ρ m') (hρ : ρ ≤ τ)
    (hi : image.Alike exact τ image') :
    { m with image }.Alike exact τ { m' with image := image' } :=
  { h with
    image := hi
    global := hρ _ _ h.global
    control := h.control.mono hρ fun he => (hi.store.same he).right }

theorem Alike.setStore {s s' : Store} (h : m.Alike exact ρ m') (hρ : ρ ≤ τ)
    (hs : s.Alike exact τ s') : { m with image := { m.image with store := s } }.Alike exact τ
      { m' with image := { m'.image with store := s' } } :=
  h.setImage hρ ⟨hs, h.image.symbols⟩

-- Between two requests nothing is asked of the control state.
def idleLikeness (exact : Prop) : Likeness Machine where
  exact := exact
  lenient := False
  alike := Idle exact
  idle := Idle exact

theorem Idle.setImage {image image' : Image} (h : m.Idle exact ρ m') (hρ : ρ ≤ τ)
    (hi : image.Alike exact τ image') : { m with image }.Idle exact τ { m' with image := image' } :=
  { h with
    image := hi
    global := hρ _ _ h.global }

theorem onImage_agree {L : Likeness Machine} {x x' : Act Image α}
    {A : Renaming → α → α → Prop} (hx : L.exact = exact)
    (hs : ∀ τ image image', ρ ≤ τ → image.Alike exact τ image' →
      L.alike τ { m with image } { m' with image := image' })
    (h : Agree (Image.likeness exact) ρ A (x m.image) (x' m'.image)) :
    Agree L ρ A ((liftM x : Run α) m) ((liftM x' : Run α) m') := by
  rw [show (liftM x : Run α) = onImage x from rfl, show (liftM x' : Run α) = onImage x' from rfl]
  simp only [onImage]
  generalize x m.image = r, x' m'.image = r' at h
  cases h
  case ok hρ hi ha => exact .ok hρ (hs _ _ _ hρ hi) ha
  case fault hρ hf hi => exact .fault hρ (hf.imp False.elim) (hs _ _ _ hρ hi)
  case fatal h => exact h.elim
  case exhausted h => exact .exhausted (hx ▸ h)
  case exhausted' h => exact .exhausted' (hx ▸ h)

theorem onImage_respects {x x' : Act Image α} {A : Renaming → α → α → Prop}
    (h : Respects (Image.likeness exact) ρ x x' A) :
    Respects (likeness exact) ρ (liftM x) (liftM x') A :=
  fun _ _ hm => onImage_agree rfl (fun _ _ _ => hm.setImage) (h _ _ hm.image)

theorem onImage_idle {x x' : Act Image α} {A : Renaming → α → α → Prop}
    (h : Respects (Image.likeness exact) ρ x x' A) :
    Respects (idleLikeness exact) ρ (liftM x) (liftM x') A :=
  fun _ _ hm => onImage_agree rfl (fun _ _ _ => hm.setImage) (h _ _ hm.image)

theorem onImage_steady {x x' : Act Image α} {A : α → α → Prop}
    (h : Steady (Image.likeness exact) ρ x x' A) :
    Steady (likeness exact) ρ (liftM x) (liftM x') A :=
  onImage_respects h

theorem onStore_respects {x x' : Act Store α} {A : Renaming → α → α → Prop}
    (h : Respects (Store.likeness exact) ρ x x' A) :
    Respects (likeness exact) ρ (liftM x) (liftM x') A :=
  onImage_respects <| Image.onStore_respects h

theorem onControl_steady {x x' : Act Control α} {A : α → α → Prop}
    (h : Steady (Control.likeness exact ρ) ρ x x' A) :
    Steady (likeness exact) ρ (liftM x) (liftM x') A := by
  intro m m' hm
  have hr := h m.control m'.control hm.control
  rw [show (liftM x : Run α) = onControl x from rfl,
    show (liftM x' : Run α) = onControl x' from rfl]
  simp only [onControl]
  generalize x m.control = r, x' m'.control = r' at hr
  cases hr
  case ok hc ha => exact .ok (le_refl ρ) { hm with control := hc } ⟨rfl, ha.right⟩
  case fault hf hc => exact .fault (le_refl ρ) hf { hm with control := hc }
  case fatal h => exact h.elim
  case exhausted h => exact .exhausted h
  case exhausted' h => exact .exhausted' h

end Machine
end StepLisp
