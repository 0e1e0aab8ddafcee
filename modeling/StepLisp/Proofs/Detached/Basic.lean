import StepLisp.Proofs.Store.Conduct

namespace StepLisp

open Act

-- What a continuation goes back to.
structure Snapshot where
  step : Step
  stack : Stack
  env : FrameId

def Continuation.snapshot (k : Continuation) : Snapshot :=
  ⟨k.step, k.stack, k.env⟩

def Slab.snapshots (s : Slab Continuation) (i : Nat) : Option Snapshot :=
  (s.get? i).map Continuation.snapshot

def Image.snapshots (i : Image) : Nat → Option Snapshot :=
  i.store.continuations.snapshots

namespace Machine

def snapshots (m : Machine) : Nat → Option Snapshot :=
  m.image.snapshots

variable {α β : Type} {walks sees : Prop} {x : Run α} {f : α → Run β} {v : Value}

-- The same outcome, had the control state and the count of steps been others.
def placed (c : Control) (n : Nat) :
    EStateM.Result Fault Machine α → EStateM.Result Fault Machine α
  | .ok a m => .ok a { m with control := c, steps := n }
  | .error fault m => .error fault { m with control := c, steps := n }

-- Whether the arguments are seen is said by `sees`.
structure Detached (sees : Prop) (x : Run α) : Prop where
  placed_eq (m : Machine) (c : Control) (n : Nat) : c.env = m.control.env →
    (sees → c.argl = m.control.argl) → x { m with control := c, steps := n } = placed c n (x m)
  spares : Spares snapshots x

namespace Detached

theorem placed_self (h : Detached sees x) (m : Machine) : x m = placed m.control m.steps (x m) :=
  h.placed_eq m m.control m.steps rfl fun _ => rfl

theorem control_left (h : Detached sees x) (m : Machine) : (x.left m).control = m.control := by
  have hp := h.placed_self m
  cases hr : x m <;> rw [hr] at hp <;> injection hp with _ hm
  case ok => rw [left_of_ok hr, hm]
  case error => rw [left_of_error hr, hm]

theorem bind (hx : Detached sees x) (hf : ∀ a, Detached sees (f a)) :
    Detached sees (x >>= f) := by
  refine ⟨fun m c n he ha => ?_, hx.spares.bind fun a => (hf a).spares⟩
  have hp := hx.placed_eq m c n he ha
  simp only [Bind.bind, EStateM.bind, hp]
  cases hr : x m
  case error => rfl
  case ok a m' =>
    have hc : m'.control = m.control := left_of_ok hr ▸ hx.control_left m
    exact (hf a).placed_eq m' c n (hc ▸ he) (hc ▸ ha)

end Detached

theorem onImage_detached {x : Act Image α} (h : Spares Image.snapshots x) :
    Detached sees (onImage x) where
  placed_eq m c n _ _ := by
    simp only [onImage]
    cases x m.image <;> rfl
  spares m := by
    have hs := h m.image
    simp only [onImage, snapshots]
    cases hr : x m.image <;> simp only [hr] at hs ⊢ <;> exact hs

-- What may change outside the control state. It is only where a closure is entered that scopes are
-- added.
structure Follows (enters : Prop) (m m' : Machine) : Prop where
  settings_eq : m'.settings = m.settings
  steps_eq : m'.steps = m.steps
  global_eq : m'.global = m.global
  grows : m.image.store.Grows m'.image.store
  symbols : m.image.symbols.Becomes m'.image.symbols
  enters_or : enters ∨ m'.image.store.parents = m.image.store.parents

namespace Follows

variable {enters enters' : Prop} {m m' m'' : Machine}

theorem refl (m : Machine) : m.Follows enters m :=
  ⟨rfl, rfl, rfl, .refl _, .refl _, .inr rfl⟩

theorem trans (h : m.Follows enters m') (h' : m'.Follows enters m'') : m.Follows enters m'' where
  settings_eq := h'.settings_eq.trans h.settings_eq
  steps_eq := h'.steps_eq.trans h.steps_eq
  global_eq := h'.global_eq.trans h.global_eq
  grows := h.grows.trans h'.grows
  symbols := h.symbols.trans h'.symbols
  enters_or := by
    rcases h.enters_or with he | hp
    · exact .inl he
    · exact h'.enters_or.imp_right (·.trans hp)

theorem imp (h : m.Follows enters m') (he : enters → enters') : m.Follows enters' m' :=
  { h with enters_or := h.enters_or.imp_left he }

theorem of_evolves {image : Image} (h : m.image.Evolves image) :
    m.Follows enters { m with image } :=
  ⟨rfl, rfl, rfl, h.store.toGrows, h.symbols, .inr h.store.parents_eq⟩

end Follows

def conduct (enters walks : Prop) : Rule Machine where
  allows := Follows enters
  admits fault m := fault.Admitted (walks ∨ ¬m.image.store.Scoped) ¬m.image.store.HasRoom
  refl := .refl
  trans := .trans

-- Whether there may be a walk without end is said by `walks`.
structure Plain (walks sees : Prop) (x : Run α) : Prop extends Detached sees x where
  obeys : Obeys (conduct False walks) x

namespace Plain

theorem pure {a : α} : Plain walks sees (Pure.pure a) where
  placed_eq _ _ _ _ _ := rfl
  spares := .pure a
  obeys := .pure a

theorem throw {fault : Fault} (h : fault.isPlain) : Plain walks sees (throw fault : Run α) where
  placed_eq _ _ _ _ _ := rfl
  spares := .throw (Fault.Admitted.plain h : fault.Admitted walks False).isStack_eq
  obeys := .throw fun _ => .plain h

theorem endless : Plain True sees (MonadExcept.throw .endless : Run α) where
  placed_eq _ _ _ _ _ := rfl
  spares := .throw rfl
  obeys := .throw fun _ => .endless <| .inl trivial

theorem bind (hx : Plain walks sees x) (hf : ∀ a, Plain walks sees (f a)) :
    Plain walks sees (x >>= f) :=
  ⟨hx.toDetached.bind fun a => (hf a).toDetached, hx.obeys.bind fun a => (hf a).obeys⟩

theorem imp {walks' : Prop} (hx : Plain walks sees x) (h : walks → walks') :
    Plain walks' sees x :=
  ⟨hx.toDetached, hx.obeys.imp (fun _ _ => id) fun _ _ hf => hf.imp (.imp_left h) id⟩

theorem ite {p : Prop} [Decidable p] {y : Run α} (hx : Plain walks sees x)
    (hy : Plain walks sees y) : Plain walks sees (if p then x else y) := by
  split <;> assumption

theorem mapM {g : α → Run β} (h : ∀ a, Plain walks sees (g a)) (as : List α) :
    Plain walks sees (as.mapM g) := by
  induction as
  case nil => exact pure
  case cons a as hi =>
    rw [List.mapM_cons]
    exact (h a).bind fun _ => hi.bind fun _ => pure

theorem get_bind {f : Machine → Run β} (hf : ∀ m, Plain walks sees (f m))
    (hs : ∀ m c n, f { m with control := c, steps := n } = f m) :
    Plain walks sees (get >>= f) where
  placed_eq m c n he ha := by
    have h := (hf m).placed_eq m c n he ha
    show f { m with control := c, steps := n } { m with control := c, steps := n } =
      placed c n (f m m)
    rw [hs]
    exact h
  spares m := (hf m).spares m
  obeys m := (hf m).obeys m

end Plain

-- Actions on the image

theorem onImage_obeys {x : Act Image α} (h : Obeys (Image.conduct walks) x) :
    Obeys (conduct False walks) (onImage x) := by
  intro m
  have hs := h m.image
  simp only [onImage]
  cases hr : x m.image <;> simp only [hr] at hs ⊢
  case ok => exact .of_evolves hs
  case error => exact ⟨.of_evolves hs.left, hs.right⟩

theorem image_plain {x : Act Image α} (h : Obeys (Image.conduct walks) x) :
    Plain walks sees (liftM x : Run α) :=
  ⟨onImage_detached <| (Image.spares_of_obeys h).comp Slab.snapshots, onImage_obeys h⟩

theorem store_plain {x : Act Store α} (h : Obeys (Store.conduct walks) x) :
    Plain walks sees (liftM x : Run α) :=
  image_plain <| Image.onStore_obeys h

-- Registers and lookups

theorem query_plain {f : Store → α} : Plain walks sees (query f) where
  placed_eq _ _ _ _ _ := rfl
  spares _ := rfl
  obeys m := .refl m

theorem queryOrFail_plain {f : Store → Except Fault α} (h : ∀ s, Proper walks (f s)) :
    Plain walks sees (queryOrFail f) where
  placed_eq m c n _ _ := by
    simp only [queryOrFail]
    cases f m.image.store <;> rfl
  spares m := by
    simp only [queryOrFail]
    cases hr : f m.image.store
    case ok => rfl
    case error fault => exact ⟨rfl, (h _ fault hr).isStack_eq⟩
  obeys m := by
    simp only [queryOrFail]
    cases hr : f m.image.store
    case ok => exact .refl m
    case error fault => exact ⟨.refl m, ((h _).admitted hr).imp .inl id⟩

theorem write_plain : Plain walks sees (write v) where
  placed_eq _ _ _ _ _ := rfl
  spares _ := rfl
  obeys m := .refl m

theorem display_plain : Plain walks sees (display v) where
  placed_eq _ _ _ _ _ := rfl
  spares _ := rfl
  obeys m := .refl m

theorem malformed_plain {cause : Malformed} : Plain walks sees (malformed cause : Run α) :=
  .throw rfl

theorem mistyped_plain {cause : Mistyped} : Plain walks sees (mistyped cause : Run α) :=
  .throw rfl

theorem argl_plain : Plain walks True argl where
  placed_eq m c n _ ha := by simp [argl, placed, ha]
  spares _ := rfl
  obeys m := .refl m

theorem env_plain : Plain walks sees env where
  placed_eq m c n he _ := by simp [env, placed, he]
  spares _ := rfl
  obeys m := .refl m

theorem lookup_plain {x : Symbol} : Plain walks sees (lookup x) where
  placed_eq m c n he _ := by
    simp only [lookup, he]
    cases m.image.store.lookup? m.control.env x
    case error => rfl
    case ok r => cases r <;> rfl
  spares m := by
    simp only [lookup]
    cases hr : m.image.store.lookup? m.control.env x
    case ok r => cases r <;> simp [Fault.isStack]
    case error fault => exact ⟨rfl, (Store.lookup?_proper fault hr).isStack_eq⟩
  obeys m := by
    simp only [lookup]
    cases hr : m.image.store.lookup? m.control.env x
    case error fault => exact ⟨.refl m, (Store.lookup?_proper.admitted hr).imp .inr id⟩
    case ok r =>
      cases r
      case none => exact ⟨.refl m, .plain rfl⟩
      case some => exact .refl m

theorem define_plain {x : Symbol} : Plain walks sees (define x v) :=
  env_plain.bind fun _ => store_plain Store.define_obeys

theorem cons_plain {a b : Value} : Plain walks sees (liftM (Store.cons a b) : Run Value) :=
  store_plain Store.cons_obeys

theorem single_plain : Plain walks sees (single v) := by
  refine query_plain.bind fun parts => ?_
  split
  case h_1 => exact .pure
  case h_2 => exact write_plain.bind fun _ => malformed_plain

theorem symbolOperand_plain : Plain walks sees (symbolOperand v) := by
  unfold symbolOperand
  split
  case h_1 => exact .pure
  case h_2 => exact write_plain.bind fun _ => malformed_plain

theorem atLeastTwo_plain {form : Builtin} : Plain walks sees (atLeastTwo form v) := by
  refine query_plain.bind fun parts => ?_
  split
  case h_1 => exact .pure
  case h_2 => exact malformed_plain

theorem isSpecial_proper {s : Store} : Proper walks (isSpecial s v) := by
  unfold isSpecial
  split
  case h_1 =>
    split
    case h_1 => exact .ok
    case h_2 => exact .error rfl
  case h_2 => exact Proper.present.bind fun _ => .ok
  case h_3 => exact Proper.present.bind fun _ => .ok
  case h_4 => exact .ok

-- Scopes

theorem allocFrame_detached {parent : Option FrameId} :
    Detached sees (liftM (Store.allocFrame parent) : Run FrameId) :=
  onImage_detached fun _ => rfl

theorem allocFrame_obeys {parent : Option FrameId} :
    Obeys (conduct True walks) (liftM (Store.allocFrame parent) : Run FrameId) :=
  fun _ => ⟨rfl, rfl, rfl, .of_cells rfl rfl rfl rfl (Nat.le_succ _), .refl _, .inl trivial⟩

end Machine
end StepLisp
