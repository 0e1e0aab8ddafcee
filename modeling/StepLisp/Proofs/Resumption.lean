import StepLisp.Proofs.Checkpoint.Marking
import StepLisp.Proofs.Course
import StepLisp.Proofs.Liveness

namespace StepLisp

open Act Machine Relation

namespace Store

variable {s : Store} {l : PairId}

theorem exists_cell_of_object? {o : Object} (h : s.object? l.ref = some o) : ∃ c, o = .cell c := by
  rw [object?_pair] at h
  split at h
  case isTrue => cases h
  case isFalse =>
    have ⟨c, _, hc⟩ := Option.map_eq_some_iff.mp h
    exact ⟨c, hc.symm⟩

end Store

-- What is known of a machine that is about to take a step.
structure Machine.Ready (next : Step) (m : Machine) : Prop where
  disciplined : Disciplined next m
  sound : m.image.store.Sound
  sound_of_error {fault m'} : step next m = .error fault m' → m'.image.store.Sound

section Stages

variable {rest : Reader.Contents (Datum × Nat)} {n : Nat} {next : Step} {m m' : Machine}

theorem advance_of_ok {next' : Step}
    (h : step next (m.countStep.collectBefore next) = .ok next' m') :
    advance next m = .ok next' m' := by
  simp only [advance, h]

theorem Reached.ready (h : Reached (.running rest n next m)) :
    (m.countStep.collectBefore next).Ready next := by
  have ⟨hd, ρ, ha, hk⟩ := whole_invariant.holds h
  have ⟨τ, hc, hkc⟩ := ha.countStep.collectBefore hk
  refine ⟨hd.collectBefore, hc.image.store.sound, fun {fault m'} hr => ?_⟩
  have hs := step_agree hkc hc <| .inl rfl
  rw [hr] at hs
  have ⟨_, hi⟩ := hs.exists_idle trivial fun _ => Alike.toIdle
  exact hi.image.store.sound

-- What is reached is there, and is not lost to a collection.
theorem Reached.retained (h : Reached (.running rest n next m)) {r : Ref}
    (hr : m.image.store.Reachable (m.roots next) r) : ∃ o, m.image.store.object? r = some o ∧
      (m.countStep.collectBefore next).image.store.object? r = some o := by
  have ⟨_, ρ, ha, hk⟩ := whole_invariant.holds h
  have ⟨o, _, ho, _⟩ := ha.image.store.objects <| ha.rel_of_reachable hk hr
  exact ⟨o, ho, (@retains_collectBefore m.countStep next ha.image.store.sound).object?_eq hr ho⟩

theorem Machine.Ready.extends (h : m.Ready next) : Extends m ((step next).left m) := by
  cases hr : step next m
  case ok => exact left_of_ok hr ▸ (step_turns h.disciplined h.sound hr).extends
  case error => exact left_of_error hr ▸ (step_fails h.disciplined h.sound hr).extends

end Stages

section Snapshots

variable {rest : Reader.Contents (Datum × Nat)} {n : Nat} {next : Step} {m m' : Machine}

theorem snapshots_of_object? {id : ContinuationId} {o : Object}
    (h : m.image.store.object? id.ref = some o) :
    ∃ k, o = .continuation k ∧ m.snapshots id.index = some k.snapshot := by
  rw [Store.object?_continuation] at h
  have ⟨k, hk, he⟩ := Option.map_eq_some_iff.mp h
  exact ⟨k, he.symm, Option.map_eq_some_iff.mpr ⟨k, hk, rfl⟩⟩

theorem snapshots_collectBefore (i : Nat) :
    (m.countStep.collectBefore next).snapshots i = m.snapshots i ∨
      (m.countStep.collectBefore next).snapshots i = none := by
  simp only [snapshots, Image.snapshots, store_collectBefore]
  split
  case isFalse => exact .inl rfl
  case isTrue =>
    simp only [Store.collect, Store.sweep, Slab.snapshots, Slab.get?_sweep]
    split
    case isTrue => exact .inl rfl
    case isFalse => exact .inr rfl

theorem recover_snapshots {fault : Fault} : ((recover fault).left m).snapshots = m.snapshots := by
  rcases recover_cases fault m with h | ⟨s, outer, hc, h⟩
  case inl => rw [left_of_error h]
  case inr =>
    have hl := deliverFailure_delivers.spares_resumable.view_left (m.backAt s)
      (x := deliverFailure fault)
    rw [left, h]
    exact congrArg Prod.snd hl

theorem snapshots_advance : ((advance next).left m).snapshots =
    ((step next).left (m.countStep.collectBefore next)).snapshots := by
  simp only [left, advance]
  cases hr : step next (m.countStep.collectBefore next)
  case ok => rfl
  case error fault m₁ => exact recover_snapshots

theorem snapshots_left {α : Type} {x : Run α} (h : Obeys between x) :
    (x.left m).snapshots = m.snapshots :=
  congrArg Slab.snapshots (h.left m).evolves.continuations_eq

theorem build_snapshots {d : Datum} :
    ((liftM (Image.build d) : Run Value).left m).snapshots = m.snapshots :=
  snapshots_left <| onImage_between Image.build_obeys

end Snapshots

-- The next step brings a handle into use.
def Stage.Creates (id : ContinuationId) : Stage → Prop
  | .running _ (_ + 1) next m => (m.countStep.collectBefore next).snapshots id.index = none ∧
    ((step next).left (m.countStep.collectBefore next)).snapshots id.index ≠ none
  | _ => False

-- Unless it is brought into use anew, a handle goes back to where it did or is out of use.
theorem Moves.snapshots {t t' : Stage} {id : ContinuationId} (hr : Reached t) (h : Moves t t')
    (hc : ¬t.Creates id) : t'.machine.snapshots id.index = t.machine.snapshots id.index ∨
      t'.machine.snapshots id.index = none := by
  have stepped {rest n next m} (hr : Reached (.running rest (n + 1) next m))
      (hc : ¬(Stage.running rest (n + 1) next m).Creates id) :
      ((advance next).left m).snapshots id.index = m.snapshots id.index ∨
        ((advance next).left m).snapshots id.index = none := by
    rw [snapshots_advance]
    rcases hr.ready.extends id.index with he | ⟨hn, hs⟩
    case inl =>
      rw [he]
      exact snapshots_collectBefore _
    case inr => exact absurd ⟨hn, by rw [hs]; exact nofun⟩ hc
  cases h
  case request | finish | halt | limit => exact .inl rfl
  case define => exact .inl <| congrFun (snapshots_left define_between) _
  case start hb => exact .inl <| congrFun (left_of_ok hb ▸ build_snapshots) _
  case unbuilt hb => exact .inl <| congrFun (left_of_error hb ▸ build_snapshots) _
  case reject => exact .inl <| congrFun (snapshots_left <| onImage_between Image.reject_obeys) _
  case step ha => exact left_of_ok ha ▸ stepped hr hc
  case fault ha => exact left_of_error ha ▸ stepped hr hc

-- A course in which a handle is not brought into use anew.
abbrev CourseKeeping (id : ContinuationId) :=
  ReflTransGen fun t t' => Moves t t' ∧ ¬t.Creates id

theorem CourseKeeping.reached {t t' : Stage} {id : ContinuationId} (hr : Reached t)
    (h : CourseKeeping id t t') : Reached t' :=
  hr.course <| ReflTransGen.mono (fun _ _ (h : _ ∧ _) => h.left) t t' h

theorem CourseKeeping.snapshots {t t' : Stage} {id : ContinuationId} (hr : Reached t)
    (h : CourseKeeping id t t') : t'.machine.snapshots id.index = t.machine.snapshots id.index ∨
      t'.machine.snapshots id.index = none := by
  induction h
  case refl => exact .inl rfl
  case tail hp hm hi =>
    rcases hm.left.snapshots (CourseKeeping.reached hr hp) hm.right with hs | hs
    case inl => exact hs ▸ hi
    case inr => exact .inr hs

-- The step is one that captures the present continuation, and the program gets hold of it.
structure Machine.HandsOut (next : Step) (m : Machine) (next' : Step) (m' : Machine)
    (id : ContinuationId) : Prop where
  isCapture : ∃ b, next.builtin? = some b ∧ b.isCapture
  step_eq : step next (m.countStep.collectBefore next) = .ok next' m'
  hands : m'.Hands m.control.argl id

section Main

variable {rest rest' : Reader.Contents (Datum × Nat)} {n n' : Nat} {k k' : Step} {m m' : Machine}
variable {id : ContinuationId}

theorem Machine.Hands.unique {args : Value} {id' : ContinuationId} (h : m.Hands args id)
    (h' : m.Hands args id') : id = id' := by
  unfold Hands at h h'
  split at h <;> simp_all

theorem Machine.HandsOut.snapshots (h : HandsOut k m k' m' id)
    (hr : Reached (.running rest (n + 1) k m)) :
    m'.snapshots id.index = some m.control.snapshot := by
  have ⟨b, hb, hc⟩ := h.isCapture
  have ⟨id', hk, hh⟩ := captured_of_step hr.ready.sound hb hc h.step_eq
  rw [control_collectBefore] at hh
  rw [hh.unique h.hands] at hk
  rw [hk.snapshots_eq, if_pos rfl, control_collectBefore]

-- A handle that is reached is in use, and a collection leaves what it stands for alone.
theorem Reached.snapshots_of_reachable (h : Reached (.running rest n k m))
    (hr : m.image.store.Reachable (m.roots k) id.ref) : ∃ s, m.snapshots id.index = some s ∧
      (m.countStep.collectBefore k).snapshots id.index = some s := by
  have ⟨o, ho, ho'⟩ := h.retained hr
  have ⟨c, hc, hs⟩ := snapshots_of_object? ho
  have ⟨c', hc', hs'⟩ := snapshots_of_object? ho'
  injection hc.symm.trans hc' with hc
  exact ⟨c.snapshot, hs, hc ▸ hs'⟩

-- A collection leaves alone what a continuation is applied to.
theorem Reached.supplies (h : Reached (.running rest n k m)) {v : Value} (hv : m.Supplies v) :
    (m.countStep.collectBefore k).Supplies v := by
  unfold Supplies at hv ⊢
  rw [control_collectBefore]
  refine hv.imp_right fun hu => ?_
  cases ha : m.control.argl <;> rw [ha] at hu <;> try cases hu
  case pair l =>
    obtain ⟨o, ho, ho'⟩ := h.retained (r := l.ref) <| .root <| mem_roots_of_control <| by
      simp [Control.roots, ha, Value.refs]
    obtain ⟨c, rfl⟩ := Store.exists_cell_of_object? ho
    rw [Store.uncons?_of_object? ho] at hu
    rw [Store.uncons?_of_object? ho', hu]

theorem Reached.advance_resume {s : Snapshot} {v : Value}
    (h : Reached (.running rest n (.apply (.continuation id)) m))
    (hs : (m.countStep.collectBefore (.apply (.continuation id))).snapshots id.index = some s)
    (hv : m.Supplies v) : ∃ m', advance (.apply (.continuation id)) m = .ok s.step m' ∧
      m'.control.snapshot = s ∧ m'.control.val = v :=
  ⟨_, advance_of_ok <| resume_eq hs (h.supplies hv), rfl, rfl⟩

theorem Machine.HandsOut.reached (h : HandsOut k m k' m' id)
    (hr : Reached (.running rest (n + 1) k m)) : Reached (.running rest n k' m') := by
  refine hr.course <| .single <| .step ?_ ?_
  · rintro rfl
    have ⟨_, hb, _⟩ := h.isCapture
    cases hb
  · exact advance_of_ok h.step_eq

-- A continuation is captured, and the session goes on. For as long as it is reached, its handle is
-- not brought into use anew. When it is applied, to a value or to none, the machine is back where
-- it was, with the same step to take, stack and environment, and so with the same traps.
theorem continuation_exact {rest₀ : Reader.Contents (Datum × Nat)} {n₀ : Nat} {k₀ k₁ : Step}
    {m₀ m₁ : Machine} (hr : Reached (.running rest₀ (n₀ + 1) k₀ m₀))
    (hc : HandsOut k₀ m₀ k₁ m₁ id)
    (hp : CourseKeeping id (.running rest₀ n₀ k₁ m₁) (.running rest n k m)) :
    (m.image.store.Reachable (m.roots k) id.ref → ¬(Stage.running rest n k m).Creates id) ∧
    ∀ v, k = .apply (.continuation id) → m.Supplies v →
      ∃ m', advance k m = .ok m₀.control.cont m' ∧ m'.control.snapshot = m₀.control.snapshot ∧
        m'.control.val = v ∧ m'.checkpoints = m₀.checkpoints := by
  have hr₁ := hc.reached hr
  have hm := CourseKeeping.reached hr₁ hp
  constructor
  case left =>
    intro hi hn
    have ⟨s, _, hs⟩ := hm.snapshots_of_reachable hi
    cases n
    case zero => exact hn
    case succ => exact absurd (hs.symm.trans hn.left) nofun
  case right =>
    rintro v rfl hv
    have hi : id.ref ∈ m.roots (.apply (.continuation id)) := List.mem_cons_self
    have ⟨s, hs, hs'⟩ := hm.snapshots_of_reachable <| .root hi
    have hs₀ : s = m₀.control.snapshot := by
      rcases CourseKeeping.snapshots hr₁ hp with he | he
      case inl => exact Option.some.inj <| hs.symm.trans <| he.trans <| hc.snapshots hr
      case inr => exact absurd (hs.symm.trans he) nofun
    subst hs₀
    have ⟨m', ha, hm', hv⟩ := hm.advance_resume hs' hv
    refine ⟨m', ha, hm', hv, ?_⟩
    exact congrArg (fun s => checkpoints s.stack.slots) hm'

-- The continuation of a text is captured by a step, and applied two steps later.
def applies (m : Machine) : Bool :=
  match (Stage.reading (Reader.walk "(call/cc call/cc)".toList) m).next.next with
  | .running _ (_ + 2) k₀ m₀ =>
    match step k₀ (m₀.countStep.collectBefore k₀) with
    | .ok k₁ m₁ =>
      match m₁.image.store.uncons? m₁.control.argl, advance k₁ m₁ with
      | some (.continuation id, .nil), .ok (.apply (.continuation id')) m =>
        k₀.builtin? = some .callcc && m₀.control.argl.isNil = false &&
          k₁.builtin? = some .callcc && id = id' &&
          ((m₁.countStep.collectBefore k₁).snapshots id.index).isSome &&
          (m.image.store.uncons? m.control.argl matches some (_, .nil))
      | _, _ => false
    | _ => false
  | _ => false

theorem continuation_exact_applied : ∃ rest₀ n₀ k₀ m₀ k₁ m₁ rest n m id v m',
    Reached (.running rest₀ (n₀ + 1) k₀ m₀) ∧ HandsOut k₀ m₀ k₁ m₁ id ∧
      CourseKeeping id (.running rest₀ n₀ k₁ m₁) (.running rest n (.apply (.continuation id)) m) ∧
      m.Supplies v ∧ advance (.apply (.continuation id)) m = .ok m₀.control.cont m' ∧
      m'.control.snapshot = m₀.control.snapshot ∧ m'.control.val = v := by
  obtain ⟨m, hb, ht⟩ := exists_bare_of {} default {} applies (by decide +kernel)
  unfold applies at ht
  split at ht <;> try exact absurd ht Bool.false_ne_true
  case h_1 rest n k₀ m₀ hA =>
    split at ht <;> try exact absurd ht Bool.false_ne_true
    case h_1 k₁ m₁ hs =>
      split at ht <;> try exact absurd ht Bool.false_ne_true
      case h_1 id _ m₂ hu ha =>
        simp only [Bool.and_eq_true, decide_eq_true_eq] at ht
        obtain ⟨⟨⟨⟨⟨hk₀, hn⟩, hk₁⟩, rfl⟩, hi⟩, hm⟩ := ht
        split at hm <;> try exact absurd hm Bool.false_ne_true
        case h_1 v hv =>
          have h₀ : Reached (.reading (Reader.walk "(call/cc call/cc)".toList) m) :=
            reached_request (.bare hb) _
          have hr : Reached (.running rest (n + 2) k₀ m₀) := hA ▸ h₀.next.next
          have hc : HandsOut k₀ m₀ k₁ m₁ id :=
            ⟨⟨.callcc, hk₀, rfl⟩, hs, by rw [Hands, hn]; exact hu⟩
          have hp : CourseKeeping id (.running rest (n + 1) k₁ m₁) (.running rest n _ m₂) :=
            .single ⟨.step (fun h => by cases h ▸ hk₁) ha, fun h => by simp [h.left] at hi⟩
          obtain ⟨m', ha, hs', hv', _⟩ := (continuation_exact hr hc hp).right v rfl (.inr hv)
          exact ⟨_, _, _, _, _, _, _, _, _, _, v, m', hr, hc, hp, .inr hv, ha, hs', hv'⟩

end Main

end StepLisp
