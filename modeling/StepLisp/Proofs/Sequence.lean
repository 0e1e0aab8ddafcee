import StepLisp.Machine.Apply
import StepLisp.Proofs.Store.Chain

namespace StepLisp

open Act

variable {v w : Value} {n fuel : Nat} {i : PairId}

-- Operands

namespace Store

variable {s : Store} {e : FrameId}

-- A pair at which the operands have to wait for an evaluation, or fail.
def PausesAt (s : Store) (e : FrameId) (i : PairId) : Prop :=
  match s.car i with
  | .pair _ => True
  | .symbol x => ∀ v, s.lookup? e x ≠ .ok (some v)
  | _ => False

-- The operands go on and on, with nothing to wait for.
def Circles (s : Store) (e : FrameId) (operands : Value) : Prop :=
  ¬∃ n, s.Stops (s.PausesAt e) n operands

theorem Circles.of_cdr (hp : ¬s.PausesAt e i) (h : s.Circles e (s.cdr i)) :
    s.Circles e (.pair i) := by
  rintro ⟨n, hn | hn | ⟨_, hn⟩⟩
  · contradiction
  · contradiction
  · exact h ⟨_, hn⟩

end Store

namespace Machine

variable {m : Machine}

def pushed (m : Machine) (v : Value) : Machine :=
  { m with control := m.control.pushed (.value v) }

theorem lookup_of_found {x : Symbol} (h : m.image.store.lookup? m.control.env x = .ok (some v)) :
    lookup x m = .ok v m := by
  simp only [lookup, h]

theorem lookup_of_not_found {x : Symbol}
    (h : ∀ v, m.image.store.lookup? m.control.env x ≠ .ok (some v)) :
    ∃ fault, lookup x m = .error fault m := by
  simp only [lookup]
  split
  case h_1 v hv => exact absurd hv (h v)
  case h_2 => exact ⟨_, rfl⟩
  case h_3 => exact ⟨_, rfl⟩

theorem operandsFrom_succ_of_pausesAt {fuel' : Nat} (h : m.image.store.PausesAt m.control.env i) :
    operandsFrom (fuel + 1) (.pair i) m = operandsFrom (fuel' + 1) (.pair i) m := by
  simp only [Store.PausesAt] at h
  simp only [operandsFrom, query, Bind.bind, EStateM.bind]
  generalize m.image.store.car i = arg at h
  cases arg
  case pair => rfl
  case symbol x =>
    have ⟨fault, hf⟩ := lookup_of_not_found h
    simp only [EStateM.bind, hf]
  all_goals exact h.elim

theorem operandsFrom_succ_of_not_pausesAt (h : ¬m.image.store.PausesAt m.control.env i) :
    ∃ v, ∀ fuel, operandsFrom (fuel + 1) (.pair i) m =
      operandsFrom fuel (m.image.store.cdr i) (m.pushed v) := by
  simp only [Store.PausesAt] at h
  simp only [operandsFrom, query, Bind.bind, EStateM.bind]
  generalize m.image.store.car i = arg at h
  cases arg
  case pair => exact absurd trivial h
  case symbol x =>
    simp only [ne_eq, not_forall, not_not] at h
    obtain ⟨v, hv⟩ := h
    exact ⟨v, fun _ => by simp only [EStateM.bind, lookup_of_found hv]; rfl⟩
  all_goals exact ⟨_, fun _ => rfl⟩

theorem operandsFrom_of_stops
    (h : m.image.store.Stops (m.image.store.PausesAt m.control.env) n v) (hn : n ≤ fuel) :
    operandsFrom fuel v m = operandsFrom n v m := by
  generalize hs : m.image.store = s, hp : m.image.store.PausesAt m.control.env = stop at h
  induction h generalizing m fuel
  case atom v hv => cases fuel <;> cases v <;> first | rfl | cases hv
  all_goals
    subst hs hp
    obtain _ | fuel := fuel
    · cases hn
  case last h => exact operandsFrom_succ_of_pausesAt h
  case pair h _ hi =>
    have ⟨w, hw⟩ := operandsFrom_succ_of_not_pausesAt h
    rw [hw, hw]
    exact hi (Nat.le_of_succ_le_succ hn) rfl rfl

theorem operandsFrom_of_circles (fuel : Nat) (h : m.image.store.Circles m.control.env v) :
    ∃ control, operandsFrom fuel v m = .error .endless { m with control } := by
  induction fuel generalizing v m
  all_goals obtain ⟨i, rfl, hs, hr⟩ := Store.Stops.not_exists h
  case zero => exact ⟨m.control, rfl⟩
  case succ hi =>
    have ⟨w, hw⟩ := operandsFrom_succ_of_not_pausesAt hs
    rw [hw]
    exact hi (m := m.pushed w) hr

end Machine

-- Parameters

namespace Store

variable {s : Store} {stop : PairId → Prop}

-- A pair that does not hold an ordinary parameter.
def NoParamAt (s : Store) (i : PairId) : Prop :=
  ∀ x, s.car i = .symbol x → x = .ampersand

-- `Binds s n params args`: binding the arguments looks at `n` pairs of the parameters.
inductive Binds (s : Store) : Nat → Value → Value → Prop
  | atom {v w : Value} : v.isPair = false → Binds s 0 v w
  | last {i : PairId} {w : Value} : s.NoParamAt i ∨ w.isPair = false → Binds s 1 (.pair i) w
  | pair {i j : PairId} {n : Nat} : ¬s.NoParamAt i → Binds s n (s.cdr i) (s.cdr j) →
    Binds s (n + 1) (.pair i) (.pair j)

theorem ends_of_walk {vs : List Value}
    (h : Walk (fun v => ∀ i, v = .pair i → False) s.tail v vs) : s.Ends v := by
  induction h
  case stop v hs =>
    refine ⟨0, .atom ?_⟩
    cases v
    case pair i => exact (hs i rfl).elim
    all_goals rfl
  case step v _ hs _ hi =>
    cases v
    case pair i =>
      have ⟨n, hn⟩ := hi
      exact ⟨n + 1, .pair id hn⟩
    all_goals exact absurd (fun _ h => nomatch h) hs

-- A chain that ends leaves out the pairs of one that does not.
theorem Stops.lt {P : Value → Prop} (h : s.Stops (fun _ => False) n v)
    (hp : ∀ i, P (.pair i) → i.index < s.totalCells ∧ P (s.cdr i)) (hv : P v) (hi : P (.pair i))
    (hn : ¬∃ n, s.Stops stop n (.pair i)) : n < s.totalCells := by
  have ⟨vs, hw, hl⟩ := h.walk
  have hm : ∀ w ∈ vs, P w := by
    refine hw.forall_mem (fun w hw hs => ?_) hv
    cases w
    case pair i => exact (hp i hw).right
    all_goals exact absurd (fun _ h => nomatch h) hs
  have hne : .pair i ∉ vs := by
    intro hi
    have ⟨_, _, hw⟩ := hw.suffix_of_mem hi
    exact hn (ends_of_walk hw).stops
  have hle : (pairsOf (.pair i :: vs)).length ≤ s.totalCells := by
    refine pairsOf_length_le (hw.nodup.cons hne) fun j hj => ?_
    rcases List.mem_cons.mp hj with hj | hj
    · cases hj
      exact (hp i hi).left
    · exact (hp j <| hm _ hj).left
  rw [← hl]
  exact hle

theorem Binds.le_of_stops {k : Nat} (h : s.Binds n v w) (hs : s.Stops s.NoParamAt k v) :
    n ≤ k := by
  induction h generalizing k
  case atom => exact Nat.zero_le k
  case last =>
    rcases Stops.pair_iff.mp hs with ⟨_, rfl⟩ | ⟨_, _, rfl, _⟩ <;> omega
  case pair hp _ hi =>
    rcases Stops.pair_iff.mp hs with ⟨hp', _⟩ | ⟨_, k, rfl, hr⟩
    · contradiction
    · exact Nat.succ_le_succ <| hi hr

theorem Binds.stops_of_not_stops (h : s.Binds n v w) (hs : ¬∃ k, s.Stops s.NoParamAt k v) :
    ∃ k, n = k + 1 ∧ s.Stops (fun _ => False) k w := by
  induction h
  case atom hv => exact absurd ⟨0, .atom hv⟩ hs
  case last h =>
    rcases h with h | h
    · exact absurd ⟨1, .last h⟩ hs
    · exact ⟨0, rfl, .atom h⟩
  case pair i j n hp _ hi =>
    have ⟨k, hk, hw⟩ := hi fun ⟨k, hk⟩ => hs ⟨k + 1, .pair hp hk⟩
    exact ⟨k + 1, congrArg (· + 1) hk, .pair id hw⟩

-- Not more pairs are looked at than there are cells.
theorem Binds.le {P : Value → Prop} (h : s.Binds n v w)
    (hp : ∀ i, P (.pair i) → i.index < s.totalCells ∧ P (s.cdr i)) (hv : P v) (hw : P w) :
    n ≤ s.totalCells := by
  by_cases hs : ∃ k, s.Stops s.NoParamAt k v
  case pos =>
    have ⟨k, hk⟩ := hs
    exact Nat.le_trans (h.le_of_stops hk) (hk.le hp hv)
  case neg =>
    have ⟨k, hk, hend⟩ := h.stops_of_not_stops hs
    obtain ⟨i, rfl, _⟩ := Stops.not_exists hs
    exact hk ▸ hend.lt hp hw hv hs

theorem Binds.not_exists (h : ¬∃ n, s.Binds n v w) : ∃ i j, v = .pair i ∧ w = .pair j ∧
    ¬s.NoParamAt i ∧ ¬∃ n, s.Binds n (s.cdr i) (s.cdr j) := by
  cases v
  case pair i =>
    have hs : ¬s.NoParamAt i := fun hs => h ⟨1, .last <| .inl hs⟩
    cases w
    case pair j => exact ⟨i, j, rfl, rfl, hs, fun ⟨n, hn⟩ => h ⟨n + 1, .pair hs hn⟩⟩
    all_goals exact absurd ⟨1, .last <| .inr rfl⟩ h
  all_goals exact absurd ⟨0, .atom rfl⟩ h

theorem Binds.of_cells {t : Store} (h : s.Binds n v w) (hc : t.cells = s.cells) :
    t.Binds n v w := by
  have hcar (i : PairId) : s.car i = t.car i := by rw [car, car, hc]
  have hcdr (i : PairId) : s.cdr i = t.cdr i := by rw [cdr, cdr, hc]
  induction h
  case atom hv => exact .atom hv
  case last i w h => exact .last <| by simpa only [NoParamAt, hcar] using h
  case pair i j n hs _ hi =>
    exact .pair (by simpa only [NoParamAt, hcar] using hs) (by simpa only [hcdr] using hi)

theorem Binds.atom_iff (hv : v.isPair = false) : s.Binds n v w ↔ n = 0 := by
  constructor
  case mp =>
    rintro (_ | _ | _)
    · rfl
    all_goals cases hv
  case mpr =>
    rintro rfl
    exact .atom hv

theorem Binds.last_iff (hw : w.isPair = false) : s.Binds n (.pair i) w ↔ n = 1 := by
  constructor
  case mp =>
    rintro (h | _ | _)
    · cases h
    · rfl
    · cases hw
  case mpr =>
    rintro rfl
    exact .last <| .inr hw

theorem Binds.pair_iff {j : PairId} : s.Binds n (.pair i) (.pair j) ↔
    s.NoParamAt i ∧ n = 1 ∨ ¬s.NoParamAt i ∧ ∃ k, n = k + 1 ∧ s.Binds k (s.cdr i) (s.cdr j) := by
  constructor
  case mp =>
    rintro (h | h | ⟨hs, h⟩)
    · cases h
    · rcases h with h | h
      · exact .inl ⟨h, rfl⟩
      · cases h
    · exact .inr ⟨hs, _, rfl, h⟩
  case mpr =>
    rintro (⟨h, rfl⟩ | ⟨hs, k, rfl, h⟩)
    · exact .last <| .inl h
    · exact .pair hs h

end Store

namespace Machine

variable {m : Machine} {frame : FrameId}

theorem onStore_of_ok {α : Type} {x : Act Store α} {a : α} {s : Store}
    (h : x m.image.store = .ok a s) :
    (liftM x : Run α) m = .ok a { m with image := { m.image with store := s } } := by
  rw [show (liftM x : Run α) = onImage (Image.onStore x) from rfl]
  simp only [onImage, Image.onStore, h]

theorem cells_of_define {s t : Store} {x : Symbol} (h : Store.define frame x v s = .ok () t) :
    t.cells = s.cells := by
  simp only [Store.define] at h
  split at h <;> cases h
  rfl

variable {f : Frame}

-- One more parameter is bound in a frame that exists.
theorem bindParamsFrom_succ (hs : m.image.store.Sound)
    (hf : m.image.store.object? frame.ref = some (.frame f)) (h : ¬m.image.store.NoParamAt i)
    (j : PairId) : ∃ f' s, m.image.store.Puts frame.ref (.frame f') s ∧
      s.cells = m.image.store.cells ∧
        ∀ fuel, bindParamsFrom frame (fuel + 1) (.pair i) (.pair j) m =
        bindParamsFrom frame fuel (m.image.store.cdr i) (m.image.store.cdr j)
          { m with image := { m.image with store := s } } := by
  simp only [Store.NoParamAt, not_forall] at h
  obtain ⟨x, hx, hne⟩ := h
  have ⟨s, hd, hp⟩ := Store.define_puts (x := x) (v := m.image.store.car j) hs hf
  refine ⟨_, s, hp, cells_of_define hd, fun fuel => ?_⟩
  simp only [bindParamsFrom, query, Store.uncons?, Bind.bind, EStateM.bind, hx, if_neg hne,
    onStore_of_ok hd]

theorem bindParamsFrom_of_binds (hs : m.image.store.Sound)
    (hf : m.image.store.object? frame.ref = some (.frame f)) (h : m.image.store.Binds n v w)
    (hn : n ≤ fuel) : bindParamsFrom frame fuel v w m = bindParamsFrom frame n v w m := by
  induction n generalizing m v w fuel f
  case zero =>
    cases h
    case atom hv => cases fuel <;> cases v <;> first | rfl | cases hv
  case succ n hi =>
    obtain _ | fuel := fuel
    · cases hn
    cases h
    case last i h =>
      simp only [Store.NoParamAt] at h
      simp only [bindParamsFrom, query, Bind.bind, EStateM.bind]
      generalize m.image.store.car i = param at h
      cases param
      case symbol x =>
        by_cases hx : x = .ampersand
        case pos => simp only [if_pos hx]
        case neg =>
          simp only [if_neg hx]
          have hw : w.isPair = false := h.resolve_left fun h => hx <| h x rfl
          cases w <;> first | rfl | cases hw
      all_goals rfl
    case pair i j hp h =>
      have ⟨f', s, hput, hc, hb⟩ := bindParamsFrom_succ hs hf hp j
      rw [hb, hb]
      exact hi hput.sound ((hput.object?_eq _).trans <| if_pos rfl) (h.of_cells hc)
        (Nat.le_of_succ_le_succ hn)

-- What was bound in vain is in the frame, and nothing else has changed.
theorem bindParamsFrom_of_not_binds (fuel : Nat) (hs : m.image.store.Sound)
    (hf : m.image.store.object? frame.ref = some (.frame f))
    (h : ¬∃ n, m.image.store.Binds n v w) :
    ∃ f' s, m.image.store.Puts frame.ref (.frame f') s ∧ bindParamsFrom frame fuel v w m =
      .error .endless { m with image := { m.image with store := s } } := by
  induction fuel generalizing m v w f
  all_goals obtain ⟨i, j, rfl, rfl, hp, hr⟩ := Store.Binds.not_exists h
  case zero =>
    refine ⟨f, m.image.store, ⟨fun r => ?_, hs⟩, rfl⟩
    split
    case isTrue h => rw [h, hf]
    case isFalse => rfl
  case succ fuel hi =>
    have ⟨f₁, s₁, hput, hc, hb⟩ := bindParamsFrom_succ hs hf hp j
    have hf₁ := (hput.object?_eq _).trans <| if_pos rfl
    have hr₁ : ¬∃ n, s₁.Binds n (m.image.store.cdr i) (m.image.store.cdr j) :=
      fun ⟨n, hn⟩ => hr ⟨n, hn.of_cells hc.symm⟩
    have ⟨f₂, s₂, hput₂, he⟩ :=
      hi (m := { m with image := { m.image with store := s₁ } }) hput.sound hf₁ hr₁
    exact ⟨f₂, s₂, hput.trans hput₂, by rw [hb, he]⟩

-- A step that has no end: the operands that it takes have none, or the parameters and arguments of
-- the closure that it applies run in a cycle.
inductive Circles (m : Machine) : Step → Prop
  | eval {i : PairId} {x : Symbol} {proc : Value} : m.control.exp = .pair i →
    m.image.store.car i = .symbol x → m.image.store.lookup? m.control.env x = .ok (some proc) →
    isSpecial m.image.store proc = .ok false →
    m.image.store.Circles m.control.env (m.image.store.cdr i) → m.Circles .eval
  | evalOperator {args : Value} {e : FrameId} {σ : List Slot} :
    m.control.stack.slots = .value args :: .env e :: σ →
    isSpecial m.image.store m.control.val = .ok false → m.image.store.Circles e args →
    m.Circles .evalOperator
  | evalOperand {rest : Value} {e : FrameId} {σ : List Slot} :
    m.control.stack.slots = .env e :: .value rest :: σ → m.image.store.Circles e rest →
    m.Circles .evalOperand
  | foreign {id : BuiltinId} {i j : PairId} {group function : Symbol} {g : GroupId} :
    Builtin.ofId? id = some .ffi → m.control.argl = .pair i →
    m.image.store.car i = .symbol group → m.image.store.cdr i = .pair j →
    m.image.store.car j = .symbol function → Group.id? (m.image.symbols.name group) = some g →
    m.image.store.Circles m.control.env (m.image.store.cdr j) → m.Circles (.apply (.builtin id))
  | closure {id : ClosureId} {c : Closure} : m.image.store.closure id = .ok c →
    (¬∃ n, m.image.store.Binds n c.params m.control.argl) → m.Circles (.apply (.closure id))

end Machine
end StepLisp
