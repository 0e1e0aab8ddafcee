import StepLisp.Proofs.Course
import StepLisp.Proofs.Liveness

namespace StepLisp

open Act

namespace Store

variable {s s' : Store} {root e : FrameId} {parents parents' : Nat → Option (Option FrameId)}

theorem Within.mono (h : Within parents root e)
    (hp : ∀ i p, parents i = some p → parents' i = some p) : Within parents' root e := by
  induction h
  case root h => exact .root <| hp _ _ h
  case child h _ hi => exact .child (hp _ _ h) hi

theorem ScopedIn.of_parents_eq (h : s.ScopedIn root) (hp : s'.parents = s.parents) :
    s'.ScopedIn root :=
  fun e he => hp ▸ h e (hp ▸ he)

-- One more scope, within one that there is.
theorem ScopedIn.insert {i : Nat} (h : s.ScopedIn root) (hi : s.parents i = none)
    (he : (s.parents e.index).isSome)
    (hp : s'.parents = Function.update s.parents i (some (some e))) : s'.ScopedIn root := by
  have hne {j : Nat} (hj : (s.parents j).isSome) : j ≠ i := by
    rintro rfl
    simp [hi] at hj
  have hw {e' : FrameId} (h : Within s.parents root e') : Within s'.parents root e' :=
    h.mono fun j p hj => by rw [hp, Function.update_of_ne (hne <| hj ▸ rfl), hj]
  intro e' he'
  by_cases hi' : e'.index = i
  case pos => exact .child (by rw [hp, hi', Function.update_self]) (hw <| h e he)
  case neg =>
    rw [hp, Function.update_of_ne hi'] at he'
    exact hw <| h e' he'

-- Frames as objects

theorem parents_eq_content : s.parents e.index =
    (s.content? e.ref).bind fun
      | .frame f => some f.parent
      | _ => none := by
  simp only [Store.parents, content?, Handle.ref]
  cases s.frames.get? e.index <;> rfl

theorem isSome_parents {f : Frame} (h : s.object? e.ref = some (.frame f)) :
    (s.parents e.index).isSome := by
  rw [parents_eq_content, (object?_eq_some_iff.mp h).right]
  rfl

theorem parents_collect {roots : List Ref} (h : s.Reachable roots e.ref) :
    (s.collect roots).2.parents e.index = s.parents e.index := by
  rw [parents_eq_content, content?_collect h, ← parents_eq_content]

theorem parents_collect_of_not_reachable {roots : List Ref} (h : ¬s.Reachable roots e.ref) :
    (s.collect roots).2.parents e.index = none := by
  rw [parents_eq_content, content?_collect_of_not_reachable (by simp [Handle.ref]) h]
  rfl

-- A scope that is reached leads to others that are.
theorem Reachable.parent {roots : List Ref} {p : FrameId} (h : s.Reachable roots e.ref)
    (hp : s.parents e.index = some (some p)) : s.Reachable roots p.ref := by
  have ⟨f, hf, hp⟩ := Option.map_eq_some_iff.mp hp
  refine .step h ?_
  simp [refs, Handle.ref, hf, refsOf, Frame.refs, hp]

theorem Within.collect {roots : List Ref} (h : Within s.parents root e)
    (hr : s.Reachable roots e.ref) : Within (s.collect roots).2.parents root e := by
  induction h
  case root h => exact .root <| (parents_collect hr).trans h
  case child h _ hi => exact .child ((parents_collect hr).trans h) <| hi <| hr.parent h

theorem ScopedIn.collect {roots : List Ref} (h : s.ScopedIn root) :
    (s.collect roots).2.ScopedIn root := by
  intro e he
  by_cases hr : s.Reachable roots e.ref
  case pos => exact (h e <| parents_collect hr ▸ he).collect hr
  case neg =>
    rw [parents_collect_of_not_reachable hr] at he
    cases he

-- A new frame
theorem parents_allocFrame {frame : FrameId} {p : Option FrameId} (hs : s.Sound)
    (h : allocFrame p s = .ok frame s') : s.parents frame.index = none ∧
      s'.parents = Function.update s.parents frame.index (some p) := by
  simp only [allocFrame] at h
  cases h
  constructor
  case left => simp [Store.parents, hs.frames.get?_insert_fst]
  case right =>
    funext i
    simp only [Store.parents, hs.frames.get?_insert, Function.update_apply]
    split <;> rfl

end Store

namespace Machine

variable {k : Step} {σ : List Slot} {m m' : Machine} {ρ : Renaming}

-- All scopes lie within the global one.
def Scoped (m : Machine) : Prop :=
  m.image.store.ScopedIn m.global

theorem Scoped.of_follows (h : m.Scoped) (hf : m.Follows False m') : m'.Scoped := by
  rw [Scoped, hf.global_eq]
  exact Store.ScopedIn.of_parents_eq h <| hf.enters_or.resolve_left id

theorem Scoped.collectBefore (h : m.Scoped) : (m.countStep.collectBefore k).Scoped := by
  by_cases hd : m.image.store.isCollectionDue
  case pos =>
    rw [collectBefore_of_due hd]
    exact Store.ScopedIn.collect h
  case neg =>
    rw [collectBefore_of_not_due <| Bool.eq_false_iff.mpr hd]
    exact h

theorem Outcome.follows {α : Type} {enters walks : Prop} {x : Run α}
    {Q : α → Step → List Slot → Prop} (h : Outcome enters walks m Q (x m)) :
    m.Follows enters (x.left m) := by
  cases hr : x m <;> rw [hr] at h
  case ok => exact left_of_ok hr ▸ h.left
  case error => exact left_of_error hr ▸ h.left

-- Closures

theorem enterFor_effect {c : Closure} {args : Value} {frame : FrameId} {fuel : Nat} :
    Effect False True k σ (enterFor fuel c args frame) (Goes true k σ) :=
  bindParamsFrom_plain.effect_bind fun _ => setEnv_keeps.effect_bind fun _ =>
    evaluate_effect <| .eval rfl

theorem scoped_enter {c : Closure} {e : FrameId} (h : m.Scoped) (hm : At k σ m)
    (hs : m.image.store.Sound) (he : (m.image.store.parents e.index).isSome) :
    ((enter c e).left m).Scoped := by
  have ⟨frame, s, ha, _⟩ := Store.allocFrame_puts (some e) hs
  have ⟨hn, hp⟩ := Store.parents_allocFrame hs ha
  have hm' : At k σ { m with image := { m.image with store := s } } := by
    cases ha
    exact hm.of_eq rfl rfl
  have hl : (enter c e).left m = (enterFor s.totalCells c m.control.argl frame).left
    { m with image := { m.image with store := s } } := by simp only [left, enter_eq ha]
  rw [hl]
  refine Scoped.of_follows ?_ (enterFor_effect _ hm').follows
  exact Store.ScopedIn.insert h hn he hp

theorem applyClosure_eq {id : ClosureId} {c : Closure} (h : m.image.store.closure id = .ok c) :
    applyClosure id m = enter c (if c.special then m.control.env else c.env) m := by
  rw [applyClosure]
  simp only [queryOrFail, Bind.bind, EStateM.bind, h]
  rfl

theorem scoped_applyClosure {id : ClosureId} (h : m.Scoped) (hm : At k σ m)
    (ha : m.Alike True ρ m) (hi : ρ id.ref id.ref) : ((applyClosure id).left m).Scoped := by
  have ⟨c, _, hc, _, hl⟩ := ha.image.store.closure hi
  have ⟨e, he⟩ : ∃ e : FrameId, ρ (if c.special then m.control.env else c.env).ref e.ref := by
    split
    case isTrue => exact ⟨_, ha.control.env⟩
    case isFalse => exact ⟨_, hl.env⟩
  have ⟨f, _, hf, _⟩ := ha.image.store.frame he
  simp only [left, applyClosure_eq (Store.closure_of_object? hc)]
  exact scoped_enter h hm ha.image.store.sound (Store.isSome_parents hf)

theorem scoped_step (hd : Disciplined k m) (h : m.Scoped) (ha : m.Alike True ρ m)
    (hk : k.Alike ρ k) : ((step k).left m).Scoped := by
  have ho := step_outcome hd.pending hd.at
  by_cases he : k.enters
  case neg => exact h.of_follows <| ho.follows.imp he
  case pos =>
    cases k <;> try exact he.elim
    case apply v =>
      cases v <;> try exact he.elim
      case closure id =>
        cases hk
        case apply hv =>
          cases hv
          case closure hi => exact scoped_applyClosure h hd.at ha hi
        case same h => cases h

theorem scoped_advance (hd : Disciplined k m) (h : m.Scoped) (ha : m.Alike True ρ m)
    (hk : k.Alike ρ k) : ((advance k).left m).Scoped := by
  have ⟨τ, hc, hkc⟩ := ha.countStep.collectBefore hk
  have hs := scoped_step hd.collectBefore h.collectBefore hc hkc
  have ho := step_outcome hd.collectBefore.pending hd.collectBefore.at
  unfold Machine.advance
  simp only [left] at hs ⊢
  cases hr : step k (m.countStep.collectBefore k) <;> rw [hr] at hs ho
  case ok => exact hs
  case error fault m' => exact Scoped.of_follows hs (recover_outcome ho.right).follows

-- Sessions

theorem global_of_bare {settings : Settings} {host : Host} {output : Output}
    (h : bare settings host output = .ok m) :
    m.global = ⟨0⟩ := by
  have hb := built_of_around h
  have ⟨image, ha⟩ : ∃ image, (liftM (Store.allocFrame none) : Act Image FrameId)
    (.new settings.heapCells settings.gcThreshold) = .ok ⟨0⟩ image := ⟨_, rfl⟩
  simp only [globals, Bind.bind, EStateM.bind, ha] at hb
  split at hb
  case h_1 =>
    simp only [Pure.pure, EStateM.pure, EStateM.Result.ok.injEq] at hb
    exact hb.left.symm
  case h_2 => cases hb

theorem scoped_of_bare {settings : Settings} {host : Host} {output : Output}
    (h : bare settings host output = .ok m) :
    m.Scoped := by
  have hp := (evolves_of_bare h).parents_eq
  refine Store.ScopedIn.of_parents_eq ?_ hp
  rw [global_of_bare h]
  rintro ⟨i⟩ he
  cases i
  case zero => exact .root rfl
  case succ => cases he

theorem scoped_invariant :
    Invariant (fun m => (m.image.store.ContinuationsFit ∧ m.Whole) ∧ m.Scoped)
      (fun k m => (Disciplined k m ∧ ∃ ρ, m.Alike True ρ m ∧ k.Alike ρ k) ∧ m.Scoped) := by
  refine whole_invariant.and scoped_of_bare ?_ ?_ ?_
  case refine_1 =>
    intro α x m hx h
    have hl := hx.left m
    rw [Scoped, hl.eq]
    exact Store.ScopedIn.of_parents_eq h hl.evolves.parents_eq
  case refine_2 => exact fun _ _ h => h
  case refine_3 =>
    intro k m ⟨hd, ρ, hm, hk⟩ h
    exact scoped_advance hd h hm hk

end Machine
end StepLisp
