import StepLisp.Proofs.Renaming.Operation
import StepLisp.Proofs.Sequence

namespace StepLisp

open Act

variable {exact : Prop} {ρ : Renaming} {v v' w w' : Value} {n fuel : Nat} {i i' : PairId}

namespace Store

variable {s s' : Store}

namespace Alike

variable (h : s.Alike exact ρ s')
include h

theorem noParamAt_iff (hi : ρ i.ref i'.ref) : s.NoParamAt i ↔ s'.NoParamAt i' := by
  have hc := h.car hi
  simp only [NoParamAt]
  generalize s.car i = param, s'.car i' = param' at hc
  cases hc <;> simp

theorem binds_iff (hv : v.Alike ρ v') (hw : w.Alike ρ w') : s.Binds n v w ↔ s'.Binds n v' w' := by
  induction n generalizing v v' w w' <;> cases hv
  case zero.pair hi =>
    cases hw
    case pair => simp [Binds.pair_iff]
    all_goals rw [Binds.last_iff rfl, Binds.last_iff rfl]
  case succ.pair hn i i' hi =>
    cases hw
    case pair j j' hj =>
      simp [Binds.pair_iff, h.noParamAt_iff hi, hn (h.cdr hi) (h.cdr hj)]
    all_goals rw [Binds.last_iff rfl, Binds.last_iff rfl]
  all_goals rw [Binds.atom_iff rfl, Binds.atom_iff rfl]

theorem binds_le (hb : s.Binds n v w) (hv : v.Alike ρ v') (hw : w.Alike ρ w') :
    n ≤ s.totalCells := by
  refine hb.le (P := fun v => ∃ v', v.Alike ρ v') ?_ ⟨v', hv⟩ ⟨w', hw⟩
  rintro i ⟨_, hi | hi⟩
  exact ⟨(h.lt_totalCells ‹_›).left, _, h.cdr ‹_›⟩

-- The walks on the two sides come to an end together, within the cells of either side.
theorem binds_cases (hv : v.Alike ρ v') (hw : w.Alike ρ w') :
    (∃ n, s.Binds n v w ∧ s'.Binds n v' w' ∧ n ≤ s.totalCells ∧ n ≤ s'.totalCells) ∨
      (¬∃ n, s.Binds n v w) ∧ ¬∃ n, s'.Binds n v' w' := by
  by_cases he : ∃ n, s.Binds n v w
  case pos =>
    obtain ⟨n, hn⟩ := he
    have hn' := h.binds_iff hv hw |>.mp hn
    refine .inl ⟨n, hn, hn', h.binds_le hn hv hw,
      hn'.le (P := fun v' => ∃ v, v.Alike ρ v') ?_ ⟨v, hv⟩ ⟨w, hw⟩⟩
    rintro i ⟨_, hi | hi⟩
    exact ⟨(h.lt_totalCells ‹_›).right, _, h.cdr ‹_›⟩
  case neg =>
    refine .inr ⟨he, fun ⟨n, hn'⟩ => he ⟨n, ?_⟩⟩
    exact h.binds_iff hv hw |>.mpr hn'

end Alike
end Store

namespace Machine

variable {m m' : Machine} {frame frame' : FrameId}

theorem bindParamsFrom_steady (hf : ρ frame.ref frame'.ref) (hv : v.Alike ρ v')
    (hw : w.Alike ρ w') : Steady (likeness exact) ρ (bindParamsFrom frame fuel v w)
      (bindParamsFrom frame' fuel v' w') fun _ _ => True := by
  induction fuel generalizing v v' w w' <;> cases hv
  case zero.nil | succ.nil =>
    exact .ite (by rw [hw.isNil_eq]) (.pure ⟨rfl, trivial⟩) (write_bind hw fun _ => .throw rfl)
  case zero.symbol | succ.symbol => exact onStore_respects <| Store.define_steady hf hw
  case succ.pair fuel hn i i' hi =>
    refine (query_steady fun _ _ h => h.car hi).steady_bind fun param param' hp => ?_
    refine (query_steady fun _ _ h => h.cdr hi).steady_bind fun more more' hm => ?_
    cases hp
    case symbol x =>
      refine .ite .rfl ?_ ?_
      · refine (uncons?_steady hm).steady_bind fun p p' hp => ?_
        cases hp
        case none => exact .throw rfl
        case some p p' hp =>
          obtain ⟨rest, last⟩ := p
          obtain ⟨rest', last'⟩ := p'
          have ⟨hr, hl⟩ := hp
          cases hr
          case symbol =>
            cases hl
            case nil => exact onStore_respects <| Store.define_steady hf hw
            all_goals exact .throw rfl
          all_goals exact .throw rfl
      · refine (uncons?_steady hw).steady_bind fun p p' hp => ?_
        cases hp
        case none => exact .throw rfl
        case some hp =>
          have hd : Steady (likeness exact) ρ _ _ fun _ _ => True :=
            onStore_respects <| Store.define_steady (x := x) hf hp.left
          exact hd.steady_bind fun _ _ _ => hn hm hp.right
    all_goals exact .throw rfl
  all_goals exact .throw rfl

theorem closure_steady {i i' : ClosureId} (hi : ρ i.ref i'.ref) :
    Steady (likeness exact) ρ (queryOrFail (·.closure i)) (queryOrFail (·.closure i'))
      (Closure.Alike ρ) := by
  refine queryOrFail_steady fun s s' h => ?_
  have ⟨c, c', hc, hc', hl⟩ := h.closure hi
  rw [Store.closure_of_object? hc, Store.closure_of_object? hc']
  exact .ok hl

-- A closure's body is evaluated in a new frame within a given one.
def enter (c : Closure) (e : FrameId) : Run Step := do
  let frame ← Store.allocFrame (some e)
  bindParams frame c.params (← argl)
  setEnv frame
  evaluate c.body

def enterFor (fuel : Nat) (c : Closure) (args : Value) (frame : FrameId) : Run Step := do
  bindParamsFrom frame fuel c.params args
  setEnv frame
  evaluate c.body

theorem enter_eq {c : Closure} {e : FrameId} {s : Store}
    (h : Store.allocFrame (some e) m.image.store = .ok frame s) :
    enter c e m = enterFor s.totalCells c m.control.argl frame
      { m with image := { m.image with store := s } } := by
  simp only [enter, Bind.bind, EStateM.bind, onStore_of_ok h]
  rfl

theorem enterFor_respects {c c' : Closure} (fuel : Nat) (hf : ρ frame.ref frame'.ref)
    (hp : c.params.Alike ρ c'.params) (hb : c.body.Alike ρ c'.body) (hv : v.Alike ρ v') :
    Respects (likeness exact) ρ (enterFor fuel c v frame) (enterFor fuel c' v' frame') Step.Alike :=
  (bindParamsFrom_steady hf hp hv).bind fun _ _ _ => (setEnv_steady hf).bind fun _ _ _ =>
    evaluate_respects hb

theorem enter_respects {c c' : Closure} {e e' : FrameId} (hc : c.Alike ρ c')
    (he : ρ e.ref e'.ref) : Respects (likeness exact) ρ (enter c e) (enter c' e') Step.Alike := by
  intro m m' hm
  have hs := hm.image.store
  have ⟨frame, s, ha, hn₀, hp⟩ := Store.allocFrame_puts (some e) hs.sound
  have ⟨frame', s', ha', hn₀', hp'⟩ := Store.allocFrame_puts (some e') hs.sound'
  rw [enter_eq ha, enter_eq ha']
  have hi : s.Alike exact (ρ.insert frame.ref frame'.ref) s' := by
    refine hs.insert hn₀ hn₀' hp hp' (.frame ⟨.nil, .some he⟩) fun hx => ?_
    have ⟨hst, hρ⟩ := hs.same hx
    rw [hst, Handle.ref_inj.mp <| hρ _ _ he, ha'] at ha
    cases ha
    exact ⟨rfl, rfl⟩
  have hτ : ρ ≤ ρ.insert frame.ref frame'.ref := Renaming.le_insert
  have hpar := hc.params.mono hτ
  have harg := hm.control.argl.mono hτ
  have run (fuel : Nat) := enterFor_respects fuel Renaming.insert_self hpar (hc.body.mono hτ) harg
    _ _ (hm.setStore hτ hi) |>.imp hτ fun _ _ _ _ => id
  by_cases hx : exact
  case pos =>
    rw [show s.totalCells = s'.totalCells from congrArg _ (hi.same hx).left]
    exact run _
  case neg =>
    have hf : s.object? frame.ref = _ := (hp.object?_eq _).trans <| if_pos rfl
    have hf' : s'.object? frame'.ref = _ := (hp'.object?_eq _).trans <| if_pos rfl
    rcases hi.binds_cases hpar harg with ⟨n, hn, hn', hle, hle'⟩ | ⟨hn, hn'⟩
    case inl =>
      have hb := run n
      simp only [enterFor, Bind.bind, EStateM.bind] at hb ⊢
      rwa [bindParamsFrom_of_binds hp.sound hf hn hle,
        bindParamsFrom_of_binds hp'.sound hf' hn' hle']
    case inr =>
      have ⟨_, t, ht, hb⟩ := bindParamsFrom_of_not_binds
        (m := { m with image := { m.image with store := s } }) s.totalCells hp.sound hf hn
      have ⟨_, t', ht', hb'⟩ := bindParamsFrom_of_not_binds
        (m := { m' with image := { m'.image with store := s' } }) s'.totalCells hp'.sound hf' hn'
      simp only [enterFor, Bind.bind, EStateM.bind, hb, hb']
      have ha := hs.aside hn₀ hn₀' (hp.trans ht) (hp'.trans ht') hx
      exact .fatal rfl { hm.toIdle with image := ⟨ha, hm.image.symbols⟩ }

theorem applyClosure_respects {i i' : ClosureId} (hi : ρ i.ref i'.ref) :
    Respects (likeness exact) ρ (applyClosure i) (applyClosure i') Step.Alike := by
  refine (closure_steady hi).bind fun c c' hc => env_steady.bind fun e e' he => ?_
  have hp : ρ (if c.special then e else c.env).ref (if c'.special then e' else c'.env).ref := by
    rw [hc.special]
    split
    case isTrue => exact he
    case isFalse => exact hc.env
  exact enter_respects hc hp

end Machine
end StepLisp
