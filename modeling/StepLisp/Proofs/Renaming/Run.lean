import StepLisp.Proofs.Renaming.Collect
import StepLisp.Proofs.Renaming.Step
import StepLisp.Proofs.Stack.Discipline

namespace StepLisp.Machine

open Act

variable {exact : Prop} {ρ : Renaming} {v v' : Value} {k k' : Step} {m m' : Machine} {n : Nat}

-- The step about to be taken runs out of cells.
def Exhausts (k : Step) (m : Machine) : Prop :=
  ∃ n m', step k (m.countStep.collectBefore k) = .error (.heapExhausted n) m'

-- The step about to be taken is given a list of parameters that ends, if any.
def GivenEnds (k : Step) (m : Machine) : Prop :=
  ∀ v, (m.countStep.collectBefore k).template? k = some v →
    (m.countStep.collectBefore k).image.store.Ends v

theorem Alike.countStep (h : m.Alike exact ρ m') : m.countStep.Alike exact ρ m'.countStep :=
  { h with steps := congrArg (· + 1) h.steps }

theorem recover_of_not_catchable {fault : Fault} (h : fault.isCatchable = false) :
    recover fault m = .error fault m := by
  simp only [recover, h]
  rfl

-- Along a run the stack is in order, so that faults are the same.
def runLikeness (exact : Prop) : Likeness Machine :=
  { likeness exact with lenient := False }

theorem advance_agree (hd : Disciplined k m) (hk : k.Alike ρ k') (hm : m.Alike exact ρ m')
    (he : exact ∨ GivenEnds k m) (hx : exact ∨ ¬Exhausts k m ∧ ¬Exhausts k' m') :
    Agree (runLikeness exact) .empty Step.Alike (advance k m) (advance k' m') := by
  refine Agree.strict (L := likeness exact) ?_ fun fault m₁ hr => ?_
  · have ⟨τ, hm, hk⟩ := hm.countStep.collectBefore hk
    have hs := step_agree hk hm <| he.imp_left fun he => congrArg _ (hm.image.store.same he).left
    simp only [advance]
    cases hr : step k _ <;> cases hr' : step k' _ <;> rw [hr, hr'] at hs
    case ok.ok =>
      cases hs
      case ok hk hm => exact .ok Renaming.empty_le hm hk
    case ok.error =>
      cases hs
      case exhausted' h => exact absurd ⟨_, _, hr'⟩ (hx.resolve_left h).right
    case error.ok =>
      cases hs
      case exhausted h => exact absurd ⟨_, _, hr⟩ (hx.resolve_left h).left
    case error.error =>
      cases hs
      case fault hf hm =>
        cases hf.eq fun _ => hd.proper hr
        exact (recover_respects hf.not_isDangling _ _ hm).imp Renaming.empty_le fun _ _ _ _ => id
      case fatal hc hm =>
        simp only [recover_of_not_catchable hc]
        exact .fatal hc hm
      case exhausted h => exact absurd ⟨_, _, hr⟩ (hx.resolve_left h).left
      case exhausted' h => exact absurd ⟨_, _, hr'⟩ (hx.resolve_left h).right
  · have hf := hd.advance
    rw [hr] at hf
    exact hf.right.proper

theorem Idle.started {exp exp' : Value} (hm : m.Idle exact ρ m') (h : exp.Alike ρ exp') :
    (m.started exp).Alike exact ρ (m'.started exp') := by
  refine { hm with
    steps := rfl
    control := ⟨h, hm.global, .same rfl, .nil, .nil, .nil, fun he => ⟨?_, ?_⟩⟩ }
  all_goals have hρ := (hm.image.store.same he).right
  · simp only [Machine.started, h.eq_of_le hρ, Handle.ref_inj.mp <| hρ _ _ hm.global]
  · exact hρ

-- No step of the evaluation runs out of cells or is given a list of parameters without end.
def Calm (m : Machine) (text : String) : Prop :=
  ∀ n k m', m.Visits text (n + 1) k m' → k ≠ .halt → ¬Exhausts k m' ∧ GivenEnds k m'

section Evaluation

variable {m₀ m₀' : Machine} {text : String} (ha : m₀.Arises)
variable (hc : exact ∨ m₀.Calm text ∧ m₀'.Calm text)
include ha hc

theorem runFor_agree (hv : m₀.Visits text n k m) (hv' : m₀'.Visits text n k' m')
    (hk : k.Alike ρ k') (hm : m.Alike exact ρ m') :
    Agree (runLikeness exact) .empty Value.Alike (runFor n k m) (runFor n k' m') := by
  induction n generalizing k k' m m' ρ <;> rcases Classical.em (k = .halt) with rfl | hn
  case zero.inl | succ.inl =>
    cases hk.halt_iff.mp rfl
    exact .ok Renaming.empty_le hm hm.control.val
  case zero.inr =>
    rw [runFor_zero hn, runFor_zero (hk.halt_iff.not.mp hn), hm.maxSteps]
    exact .fault Renaming.empty_le (.refl rfl) hm.countStep
  case succ.inr n hi =>
    have hn' := hk.halt_iff.not.mp hn
    have hd := disciplined_invariant.busy_of_visits (disciplined_invariant.idle_of_arises ha) hv
    have hstep := advance_agree hd hk hm (hc.imp_right fun hc => (hc.left n k m hv hn).right) <|
      hc.imp_right fun hc => ⟨(hc.left n k m hv hn).left, (hc.right n k' m' hv' hn').left⟩
    rw [runFor_succ hn, runFor_succ hn']
    exact hstep.bind_of_ok (le_refl _) fun _ _ _ _ _ hr hr' _ hk hm =>
      hi (hv.step hn hr) (hv'.step hn' hr') hk hm

theorem execute_agree {front rest : List (Datum × Nat)} {d : Datum} {pos : Nat} {exp exp' : Value}
    {m₁ m₁' : Machine} (hd : (Reader.walk text.toList).data = front ++ (d, pos) :: rest)
    (he : evalData front .nil m₀ = .ok v m) (he' : evalData front .nil m₀' = .ok v' m')
    (hb : (liftM (Image.build d) : Run Value) m = .ok exp m₁)
    (hb' : (liftM (Image.build d) : Run Value) m' = .ok exp' m₁') (hm : m₁.Idle exact ρ m₁')
    (hexp : exp.Alike ρ exp') : Agree (idleLikeness exact) .empty Value.Alike
      (executeGlobal exp m₁) (executeGlobal exp' m₁') := by
  have hv : m₀.Visits text _ .eval _ := .start front d pos rest hd he hb
  have hv' : m₀'.Visits text _ .eval _ := .start front d pos rest hd he' hb'
  rw [← hm.maxSteps] at hv'
  have hr := runFor_agree ha hc hv hv' (.same rfl) (hm.started hexp)
  rw [show executeGlobal exp m₁ = runFor m₁.settings.maxSteps .eval (m₁.started exp) from rfl,
    show executeGlobal exp' m₁' = runFor m₁'.settings.maxSteps .eval (m₁'.started exp') from rfl,
    ← hm.maxSteps]
  exact hr.weaken rfl id (fun _ _ _ hm => hm.toIdle) fun _ _ _ => id

theorem evalData_agree {front rest : List (Datum × Nat)}
    (hd : (Reader.walk text.toList).data = front ++ rest)
    (he : evalData front .nil m₀ = .ok v m) (he' : evalData front .nil m₀' = .ok v' m')
    (hm : m.Idle exact ρ m') (hv : v.Alike ρ v') :
    Agree (idleLikeness exact) .empty Value.Alike (evalData rest v m) (evalData rest v' m') := by
  induction rest generalizing front v v' m m' ρ
  case nil => exact .ok Renaming.empty_le hm hv
  case cons form rest hi =>
    obtain ⟨d, pos⟩ := form
    have hb := onImage_idle Image.build_respects m m' hm (x := Image.build d)
    refine hb.bind_of_ok Renaming.empty_le fun τ exp exp' m₁ m₁' hr hr' _ hexp hm₁ => ?_
    have hx := execute_agree ha hc hd he he' hr hr' hm₁ hexp
    refine hx.bind_of_ok (le_refl _) fun υ w w' m₂ m₂' hx hx' _ hw hm₂ => ?_
    have next {m₀ m m₁ m₂ : Machine} {v w exp : Value} (he : evalData front .nil m₀ = .ok v m)
        (hr : (liftM (Image.build d) : Run Value) m = .ok exp m₁)
        (hx : executeGlobal exp m₁ = .ok w m₂) :
        evalData (front ++ [(d, pos)]) .nil m₀ = .ok w m₂ := by
      simp only [evalData_append, evalData, Bind.bind, EStateM.bind, he, hr, hx]
      rfl
    exact hi (by rw [hd, List.append_assoc]; rfl) (next he hr hx) (next he' hr' hx') hm₂ hw

theorem evalText_agree (hm : m₀.Idle exact ρ m₀') :
    Agree (idleLikeness exact) .empty Value.Alike (evalText text m₀) (evalText text m₀') := by
  have hd := evalData_agree ha hc (List.nil_append _).symm rfl rfl hm .nil
  refine hd.bind fun τ v v' _ hv => ?_
  cases (Reader.walk text.toList).defect
  case none => exact .pure hv
  case some => exact onImage_idle Image.reject_respects

end Evaluation

-- Definitions and new machines

theorem define_agree {name text : String} (hm : m.Idle exact ρ m') :
    Agree (idleLikeness exact) ρ Value.Alike ((Request.define name text).serve m)
      ((Request.define name text).serve m') := by
  have hread := onImage_idle Image.read_respects m m' hm (x := Image.read text)
  refine hread.bind fun τ v v' _ hv => ?_
  have hd : Respects (idleLikeness exact) τ (defineGlobal name v) (defineGlobal name v')
      fun _ _ _ => True := by
    refine (onImage_idle Image.intern_steady).bind fun υ x _ hτ ⟨_, hx⟩ => ?_
    cases hx
    intro m m' hm
    have hs : Respects (Image.likeness exact) υ
        (Image.onStore <| Store.define m.global x v) (Image.onStore <| Store.define m'.global x v')
        _ := Image.onStore_respects <| Store.define_steady hm.global (hv.mono hτ)
    exact onImage_idle (hs.weaken fun _ _ _ _ _ => trivial) m m' hm
  exact hd.bind fun _ _ _ hτ _ => .pure <| hv.mono hτ

theorem install_respects {global global' : FrameId} {i : Nat} {builtins : List Builtin}
    (hg : ρ global.ref global'.ref) : Steady (Image.likeness exact) ρ (install global i builtins)
      (install global' i builtins) fun _ _ => True := by
  induction builtins generalizing i
  case nil => exact .pure trivial
  case cons b rest hi =>
    refine Image.intern_steady.steady_bind fun x _ hx => ?_
    cases hx
    refine Steady.steady_bind (Image.onStore_steady <| Store.define_steady hg (.builtin ⟨i⟩)) ?_
    exact fun _ _ _ => hi

theorem globals_respects : Respects (Image.likeness exact) ρ globals globals
    fun τ e e' => τ e.ref e'.ref := by
  refine (Image.onStore_respects <| Store.allocFrame_respects .none).bind fun τ e e' _ he => ?_
  exact (install_respects he).bind fun _ _ _ => .pure he

theorem new_alike {capacity threshold threshold' : Nat} (hx : exact → threshold = threshold') :
    (Image.new capacity threshold).Alike exact .empty (.new capacity threshold') where
  store := by
    refine ⟨⟨?_, ?_⟩, ?_, .new, .new, fun he => ⟨?_, Renaming.empty_le⟩⟩
    · exact fun h => h.elim
    · exact fun h => h.elim
    · exact fun h => h.elim
    · rw [hx he]
  symbols := rfl

theorem idle_of_around {settings settings' : Settings} {host : Host} {output : Output}
    {built built' : EStateM.Result Fault Image FrameId}
    (h : around settings host output built = .ok m)
    (h' : around settings' host output built' = .ok m')
    (hs : settings.maxSteps = settings'.maxSteps) (hg : settings.seed = settings'.seed)
    (hb : Agree (Image.likeness exact) ρ (fun τ e e' => τ e.ref e'.ref) built built') :
    ∃ τ, m.Idle exact τ m' := by
  cases built <;> cases h
  cases built' <;> cases h'
  cases hb
  case ok he hi => exact ⟨_, hi, he, hs, by rw [hg], rfl, rfl, rfl⟩

-- Two machines that are built alike, save for when they collect.
theorem idle_of_bare {settings : Settings} {threshold : Nat} {host : Host} {output : Output}
    (h : bare settings host output = .ok m)
    (h' : bare { settings with gcThreshold := threshold } host output = .ok m')
    (hx : exact → settings.gcThreshold = threshold) : ∃ τ, m.Idle exact τ m' :=
  idle_of_around h h' rfl rfl <| globals_respects _ _ <| new_alike hx

end StepLisp.Machine
