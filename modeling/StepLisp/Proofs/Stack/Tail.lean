import StepLisp.Proofs.Course
import StepLisp.Proofs.Stack.Discipline

namespace StepLisp

-- For each expression under way, the innermost first, how often its place has been handed over.
-- What is evaluated or expanded next takes the place of the innermost one or is under way, too; a
-- step that goes on with an expression means that a value has been delivered.
def Step.pursue (hands : Bool) : Step → List Nat → List Nat
  | _, [] => []
  | .eval, i :: outer | .quasi, i :: outer => if hands then (i + 1) :: outer else 0 :: i :: outer
  | .apply _, i :: outer => (if hands then i + 1 else i) :: outer
  | .quasiFinish, i :: outer => i :: outer
  | _, _ :: outer => outer

namespace Machine

-- `m.Pursues places k m'`: as `m` evaluates an expression it comes to be `m'`, about to take the
-- step `k`. Up to then there has been no fault and no continuation has been invoked.
inductive Pursues (m : Machine) : List Nat → Step → Machine → Prop
  | start : m.Pursues [0] .eval m
  | step {i outer k m' k' m''} : m.Pursues (i :: outer) k m' →
    (∀ id, k ≠ .apply (.continuation id)) → step k (m'.countStep.collectBefore k) = .ok k' m'' →
    m.Pursues (k'.pursue ((m'.countStep.collectBefore k).handsOver k) (i :: outer)) k' m''

end Machine

-- `Under k₀ σ₀ places k σ`: of nested expressions the outermost has its value for `k₀` on `σ₀` and
-- the innermost for `k` on `σ`.
inductive Under (k₀ : Step) (σ₀ : List Slot) : List Nat → Step → List Slot → Prop
  | base {i} : Under k₀ σ₀ [i] k₀ σ₀
  | inner {i outer k σ k' τ} : Under k₀ σ₀ outer k σ → Awaits k' τ k σ →
    Under k₀ σ₀ (i :: outer) k' τ

namespace Under

variable {k₀ k : Step} {σ₀ σ : List Slot} {i j : Nat} {outer : List Nat}

theorem recount (h : Under k₀ σ₀ (i :: outer) k σ) : Under k₀ σ₀ (j :: outer) k σ := by
  cases h
  case base => exact .base
  case inner h ha => exact .inner h ha

theorem fits {places : List Nat} (h : Under k₀ σ₀ places k σ) (h₀ : Fits k₀ σ₀) : Fits k σ := by
  induction h
  case base => exact h₀
  case inner ha hi => exact ha.fits hi

theorem single (h : Under k₀ σ₀ [i] k σ) : k = k₀ ∧ σ = σ₀ := by
  cases h
  case base => exact ⟨rfl, rfl⟩
  case inner h _ => cases h

-- Once a value has been delivered, there is none under way or the step goes on with the next one.
theorem delivered (h : Under k₀ σ₀ (i :: outer) k σ) :
    outer = [] ∨ ∃ k' σ', Under k₀ σ₀ outer k' σ' ∧ Standing k' σ' k k σ := by
  cases h
  case base => exact .inl rfl
  case inner h ha => exact .inr ⟨_, _, h, .follow ha⟩

end Under

theorem Step.pursue_of_fits {hands : Bool} {k : Step} {σ : List Slot} {i : Nat} {outer : List Nat}
    (h : Fits k σ) : k.pursue hands (i :: outer) = outer := by
  cases h <;> rfl

-- The places of the expressions under way, one step later.
theorem Under.goes {k₀ k next cont : Step} {σ₀ σ slots : List Slot} {i : Nat} {outer : List Nat}
    {hands : Bool} (h : Under k₀ σ₀ (i :: outer) k σ) (hk : Fits k σ)
    (hg : Goes hands k σ next cont slots) : next.pursue hands (i :: outer) = [] ∨
      ∃ k' σ', Under k₀ σ₀ (next.pursue hands (i :: outer)) k' σ' ∧
        Standing k' σ' next cont slots := by
  cases hg
  case eval hh =>
    rw [Step.pursue, if_pos hh]
    exact .inr ⟨k, σ, h.recount, .eval⟩
  case quasi hh =>
    rw [Step.pursue, if_pos hh]
    exact .inr ⟨k, σ, h.recount, .quasi⟩
  case evalFor hh ha =>
    rw [hh]
    exact .inr ⟨_, _, .inner h ha, .eval⟩
  case quasiFor hh ha =>
    rw [hh]
    exact .inr ⟨_, _, .inner h ha, .quasi⟩
  case apply => exact .inr ⟨k, σ, h.recount, .apply⟩
  case quasiFinish => exact .inr ⟨k, σ, h, .quasiFinish⟩
  case deliver =>
    rw [Step.pursue_of_fits hk]
    exact h.delivered

namespace Machine

variable {m m' : Machine} {k₀ k : Step} {σ₀ : List Slot} {places : List Nat}

-- The innermost of the expressions under way stands where the outermost one lets it.
def Stands (k₀ : Step) (σ₀ : List Slot) (places : List Nat) (k : Step) (m : Machine) : Prop :=
  ∃ k' σ', Under k₀ σ₀ places k' σ' ∧ Standing k' σ' k m.control.cont m.control.stack.slots

theorem Pursues.stands (h : m.Pursues places k m') (hm : Disciplined .eval m) :
    Disciplined k m' ∧
      (places = [] ∨ Stands m.control.cont m.control.stack.slots places k m') := by
  induction h
  case start => exact ⟨hm, .inr ⟨_, _, .base, .eval⟩⟩
  case step i outer k m' k' m'' _ hk hs hi =>
    have ⟨hd, hi⟩ := hi
    have ⟨k₁, σ₁, hu, hst⟩ := hi.resolve_left nofun
    have hf := hu.fits hm.pending.fits_of_eval
    rw [← control_collectBefore] at hst
    have ho := step_goes hst hf hk hd.collectBefore.at
    rw [hs] at ho
    have ⟨_, cont, slots, hm', hg⟩ := ho
    refine ⟨.of_outcome <| ho.weaken fun _ _ _ hg => hg.pending hf, ?_⟩
    rw [Stands, hm'.cont_eq, hm'.slots_eq]
    exact hu.goes hf hg

-- What takes the place of an expression, however often, finds the stack as that expression did.
theorem tail_in_place {rest : Reader.Contents (Datum × Nat)} {n i : Nat}
    (hr : Reached (.running rest n .eval m)) (h : m.Pursues [i] k m')
    (hk : k = .eval ∨ ∃ proc, k = .apply proc) :
    m'.control.stack = m.control.stack ∧ m'.control.cont = m.control.cont := by
  have hd : Disciplined .eval m := disciplined_invariant.holds hr
  have ⟨k', σ', hu, hst⟩ := (h.stands hd).right.resolve_left nofun
  obtain ⟨rfl, rfl⟩ := hu.single
  have ⟨hk, hσ⟩ := hst.in_place hk
  exact ⟨Stack.eq_of_slots_eq hσ, hk⟩

-- One more step, where there is one without a fault.
def pursued : List Nat × Step × Machine → List Nat × Step × Machine
  | ([], k, m) => ([], k, m)
  | (places, .apply (.continuation id), m) => (places, .apply (.continuation id), m)
  | (places, k, m) =>
    match step k (m.countStep.collectBefore k) with
    | .ok k' m' => (k'.pursue ((m.countStep.collectBefore k).handsOver k) places, k', m')
    | .error _ _ => (places, k, m)

theorem Pursues.pursued {t : List Nat × Step × Machine} (h : m.Pursues t.1 t.2.1 t.2.2) :
    m.Pursues (pursued t).1 (pursued t).2.1 (pursued t).2.2 := by
  fun_cases Machine.pursued t
  case case1 | case2 | case4 => exact h
  case case3 places k m' hp hk k' m'' hs =>
    obtain _ | ⟨i, outer⟩ := places
    case nil => exact (hp rfl).elim
    case cons => exact h.step hk hs

theorem Pursues.iterate (n : Nat) {t : List Nat × Step × Machine} (h : m.Pursues t.1 t.2.1 t.2.2) :
    m.Pursues (Machine.pursued^[n] t).1 (Machine.pursued^[n] t).2.1
      (Machine.pursued^[n] t).2.2 := by
  induction n generalizing t
  case zero => exact h
  case succ hi => exact hi h.pursued

-- A closure's body, the branch in it and the last expression in that one.
def handsOnThrice (m : Machine) : Bool :=
  match (Stage.reading (Reader.walk "((lambda (x) (if x (begin x x) x)) 1)".toList) m).next with
  | .running _ _ .eval m₁ =>
    match pursued^[13] ([0], .eval, m₁) with
    | ([3], .eval, _) => true
    | _ => false
  | _ => false

theorem tail_in_place_thrice : ∃ rest n m m', Reached (.running rest n .eval m) ∧
    m.Pursues [3] .eval m' ∧ m'.control.stack = m.control.stack ∧
      m'.control.cont = m.control.cont := by
  obtain ⟨m, hb, ht⟩ := exists_bare_of {} default {} handsOnThrice (by decide +kernel)
  unfold handsOnThrice at ht
  split at ht
  case h_2 => cases ht
  case h_1 rest n m₁ hA =>
    split at ht
    case h_2 => cases ht
    case h_1 m₂ hp =>
      have h₀ : Reached (.reading (Reader.walk "((lambda (x) (if x (begin x x) x)) 1)".toList) m) :=
        reached_request (.bare hb) _
      have hr : Reached (.running rest n .eval m₁) := hA ▸ h₀.next
      have h := (Pursues.start (m := m₁)).iterate 13 (t := ([0], .eval, m₁))
      rw [hp] at h
      exact ⟨rest, n, m₁, m₂, hr, h, tail_in_place hr h (.inl rfl)⟩

end Machine
end StepLisp
