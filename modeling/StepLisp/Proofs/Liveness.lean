import StepLisp.Proofs.Renaming.Run

namespace StepLisp

theorem Slab.Sound.get?_of_mem_free {α : Type} {s : Slab α} {i : Nat} (h : s.Sound)
    (hi : i ∈ s.free) : s.get? i = none := by
  simp [get?, h.vacant i hi]

namespace Store

variable {s : Store} {r : Ref} {ρ : Renaming} {roots : List Ref}

-- The place is to be given out again.
def OnFreeList (s : Store) (r : Ref) : Prop :=
  match r.kind with
  | .pair => (⟨r.index⟩ : PairId) ∈ s.freeCells
  | .string => r.index ∈ s.strings.free
  | .frame => r.index ∈ s.frames.free
  | .closure => r.index ∈ s.closures.free
  | .continuation => r.index ∈ s.continuations.free
  | .foreign => r.index ∈ s.foreigns.free

theorem Live.not_onFreeList (h : s.Live r) (hs : s.Sound) : ¬s.OnFreeList r := by
  intro hf
  have ⟨o, ho⟩ := live_iff_exists.mp h
  have hc := (object?_eq_some_iff.mp ho).right
  obtain ⟨kind, i⟩ := r
  cases kind <;> simp only [OnFreeList] at hf <;> simp only [content?] at hc
  case pair => exact h.not_isFree ⟨rfl, hf⟩
  case string => simp [hs.strings.get?_of_mem_free hf] at hc
  case frame => simp [hs.frames.get?_of_mem_free hf] at hc
  case closure => simp [hs.closures.get?_of_mem_free hf] at hc
  case continuation => simp [hs.continuations.get?_of_mem_free hf] at hc
  case foreign => simp [hs.foreigns.get?_of_mem_free hf] at hc

end Store

theorem Renaming.rel_of_mem {ρ : Renaming} {rs rs' : List Ref} {r : Ref}
    (h : List.Forall₂ ρ rs rs') (hρ : ρ ≤ Eq) (hr : r ∈ rs) : ρ r r := by
  induction h
  case nil => cases hr
  case cons h _ hi =>
    rcases List.mem_cons.mp hr with rfl | hr
    case inl => exact (hρ _ _ h).symm ▸ h
    case inr => exact hi hr

-- What is reached from references that stand for themselves stands for itself.
theorem Store.Alike.rel_of_reachable {s : Store} {ρ : Renaming} {roots : List Ref} {r : Ref}
    (h : s.Alike True ρ s) (hroots : ∀ r ∈ roots, ρ r r) (hr : s.Reachable roots r) : ρ r r := by
  induction hr
  case root hr => exact hroots _ hr
  case step r r' _ hr hi =>
    have ⟨o, o', ho, _, ha⟩ := h.objects hi
    rw [refs_eq_content, (object?_eq_some_iff.mp ho).right] at hr
    exact Renaming.rel_of_mem ha.refs (h.same trivial).right hr

theorem Control.Alike.roots {exact : Prop} {ρ : Renaming} {c c' : Control}
    (h : c.Alike exact ρ c') : List.Forall₂ ρ c.roots c'.roots := by
  have hs := List.rel_flatMap h.slots fun _ _ hs => hs.refs
  refine List.rel_append (List.rel_append (List.rel_append (List.rel_append ?_ ?_) ?_) ?_) ?_
  case refine_1 => exact h.exp.refs
  case refine_2 => exact h.val.refs
  case refine_3 => exact h.argl.refs
  case refine_4 => exact h.cont.refs
  case refine_5 => exact .cons h.env hs

section Outcomes

variable {σ α : Type} {L : Likeness σ} {ρ : Renaming} {A : Renaming → α → α → Prop}
variable {fault fault' : Fault} {s s' : σ}

theorem Agree.not_isDangling (h : Agree L ρ A (.error fault s) (.error fault' s')) (hx : L.exact) :
    fault.isDangling = false := by
  cases h
  case fault hf _ => exact hf.not_isDangling
  case fatal hc _ => cases fault <;> first | rfl | cases hc
  case exhausted h | exhausted' h => exact absurd hx h

theorem Agree.exists_idle (h : Agree L ρ A (.error fault s) (.error fault' s')) (hx : L.exact)
    (hi : ∀ τ, L.alike τ s s' → L.idle τ s s') : ∃ τ, L.idle τ s s' := by
  cases h
  case fault hs => exact ⟨_, hi _ hs⟩
  case fatal hs => exact ⟨_, hs⟩
  case exhausted h | exhausted' h => exact absurd hx h

end Outcomes

namespace Machine

open Act

variable {α : Type} {ρ : Renaming} {k : Step} {m : Machine}

theorem Alike.rel_of_reachable {r : Ref} (h : m.Alike True ρ m) (hk : k.Alike ρ k)
    (hr : m.image.store.Reachable (m.roots k) r) : ρ r r := by
  have hroots : List.Forall₂ ρ (m.roots k) (m.roots k) :=
    List.rel_append hk.refs <| .cons h.global h.control.roots
  refine h.image.store.rel_of_reachable (fun r hr => ?_) hr
  exact Renaming.rel_of_mem hroots (h.control.same trivial).right hr

theorem Alike.inexact (h : m.Alike True ρ m) : m.Alike False ρ m :=
  { h with
    image := ⟨{ h.image.store with same := False.elim }, h.image.symbols⟩
    control := { h.control with same := False.elim } }

-- What a step does depends on nothing but the objects that are reached and the size of the arena:
-- whatever else the store may hold, the outcomes are alike.
def HeedsReached (k : Step) (m : Machine) : Prop :=
  ∀ s, m.image.store.Retains (m.roots k) s → m.image.store.totalCells = s.totalCells →
    Agree (runLikeness False) .empty Step.Alike (step k m)
      (step k { m with image := { m.image with store := s } })

theorem Alike.heedsReached (h : m.Alike True ρ m) (hk : k.Alike ρ k)
    (hp : ∀ fault m', step k m = .error fault m' → fault.isStack = false) : HeedsReached k m := by
  intro s hs hn
  have ⟨τ, hm, hk⟩ := h.inexact.restrict hk (.refl h.image.store.sound) hs False.elim
  have ha := step_agree hk hm <| .inl hn
  exact Agree.strict (ha.imp Renaming.empty_le fun _ _ _ _ => id) hp

-- Between two requests and between two steps, the machine is like itself.

def Whole (m : Machine) : Prop :=
  ∃ ρ, m.Idle True ρ m

theorem whole_left {x : Run α} {A : Renaming → α → α → Prop}
    (h : Agree (idleLikeness True) ρ A (x m) (x m)) : (x.left m).Whole := by
  cases hr : x m <;> rw [hr] at h
  case ok =>
    cases h
    case ok hm => exact left_of_ok hr ▸ ⟨_, hm⟩
  case error => exact left_of_error hr ▸ h.exists_idle trivial fun _ => id

theorem whole_invariant : Invariant (fun m => m.image.store.ContinuationsFit ∧ m.Whole)
    (fun k m => Disciplined k m ∧ ∃ ρ, m.Alike True ρ m ∧ k.Alike ρ k) := by
  constructor
  case bare =>
    intro _ _ _ m h
    exact ⟨disciplined_invariant.bare h, idle_of_bare h h fun _ => rfl⟩
  case build =>
    intro d m ⟨hc, ρ, hm⟩
    have hd := disciplined_invariant.build d hc
    have ha := onImage_idle Image.build_respects m m hm (x := Image.build d)
    cases hr : (liftM (Image.build d) : Run Value) m <;> simp only [hr] at hd ha ⊢
    case ok =>
      cases ha
      case ok he hm => exact ⟨hd, _, hm.started he, .same rfl⟩
    case error => exact ⟨hd, ha.exists_idle trivial fun _ => id⟩
  case advance =>
    intro k m ⟨hd, ρ, hm, hk⟩
    have hc := disciplined_invariant.advance hd
    have ha := advance_agree hd hk hm (.inl trivial) (.inl trivial)
    cases hr : advance k m <;> simp only [hr] at hc ha ⊢
    case ok =>
      cases ha
      case ok hk hm => exact ⟨hc, _, hm, hk⟩
    case error => exact ⟨hc, ha.exists_idle trivial fun _ hm => hm.toIdle⟩
  case stop => exact fun ⟨hd, _, hm, _⟩ => ⟨hd.continuations, _, hm.toIdle⟩
  case countStep => exact fun ⟨hc, _, hm⟩ => ⟨hc, _, { hm with steps := rfl }⟩
  case reject =>
    intro defect m ⟨hc, ρ, hm⟩
    refine ⟨disciplined_invariant.reject defect hc, ?_⟩
    exact whole_left <| onImage_idle Image.reject_respects m m hm (A := fun _ _ _ => True)
  case define =>
    intro name text m ⟨hc, ρ, hm⟩
    exact ⟨disciplined_invariant.define name text hc, whole_left <| define_agree hm⟩

-- Whatever a session has been through, what a step is about to use is there.
theorem reached_live {m m' : Machine} {text : String} {n : Nat} {next : Step} (hm : m.Arises)
    (hv : m.Visits text n next m') :
    (∀ r, m'.image.store.Reachable (m'.roots next) r →
      m'.image.store.Live r ∧ ¬m'.image.store.OnFreeList r) ∧
    (∀ fault m'', step next (m'.countStep.collectBefore next) = .error fault m'' →
      fault.isDangling = false) ∧
    (∀ fault m'', advance next m' = .error fault m'' → fault.isDangling = false) ∧
    HeedsReached next (m'.countStep.collectBefore next) := by
  have ⟨hd, ρ, ha, hk⟩ := whole_invariant.busy_of_visits (whole_invariant.idle_of_arises hm) hv
  have ⟨τ, hc, hkc⟩ := ha.countStep.collectBefore hk
  refine ⟨fun r hr => ?_, fun fault m'' hr => ?_, fun fault m'' hr => ?_, ?_⟩
  · have ⟨o, _, ho, _⟩ := ha.image.store.objects <| ha.rel_of_reachable hk hr
    have hl := Store.live_iff_exists.mpr ⟨o, ho⟩
    exact ⟨hl, hl.not_onFreeList ha.image.store.sound⟩
  · have hs := step_agree hkc hc <| .inl rfl
    rw [hr] at hs
    exact hs.not_isDangling trivial
  · have hs := advance_agree hd hk ha (.inl trivial) (.inl trivial)
    rw [hr] at hs
    exact hs.not_isDangling trivial
  · exact hc.heedsReached hkc fun _ _ => hd.proper

-- A collection is due while a procedure with a procedure among its arguments is running.
def twice : String :=
  "(define (twice f x) (f (f x)))"

def twiceDoubled : String :=
  "(twice (lambda (x) (cons x x)) 1)"

def collects (m : Machine) : Bool :=
  match Stage.next^[8] (.reading (Reader.walk twiceDoubled.toList) m) with
  | .running _ _ (.apply (.closure _)) m' =>
    m.image.store.freeCells.isEmpty && !m'.image.store.freeCells.isEmpty &&
      !m'.control.stack.slots.isEmpty && decide (m'.control.env ≠ m'.global)
  | _ => false

theorem reached_live_collected : ∃ (m m' : Machine) (n : Nat) (id : ClosureId),
    Machine.bare { gcThreshold := 26 } default {} >>= load twice = .ok m ∧
    m.Visits twiceDoubled n (.apply (.closure id)) m' ∧
    (m.image.store.freeCells = [] ∧ m'.image.store.freeCells ≠ [] ∧
      m'.control.stack.slots ≠ [] ∧ m'.control.env ≠ m'.global) ∧
    ∀ r ∈ m'.roots (.apply (.closure id)),
      m'.image.store.Live r ∧ ¬m'.image.store.OnFreeList r := by
  obtain ⟨m, hm, ht⟩ : ∃ m, Machine.bare { gcThreshold := 26 } default {} >>= load twice = .ok m ∧
    collects m := exists_load_of (by decide +kernel)
  unfold collects at ht
  split at ht <;> try exact absurd ht Bool.false_ne_true
  case h_1 rest n id m' hA =>
    have hv : m.Visits twiceDoubled n (.apply (.closure id)) m' :=
      visits_iff_leads.mpr ⟨rest, 8, hA⟩
    have hl := (reached_live (arises_of_load hm) hv).left
    refine ⟨m, m', n, id, hm, hv, ?_, fun r hr => hl r <| .root hr⟩
    simpa [and_assoc] using ht

end Machine
end StepLisp
