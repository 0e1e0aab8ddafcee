import StepLisp.Proofs.Checkpoint.Step

namespace StepLisp

open Act

def Control.snapshot (c : Control) : Snapshot :=
  ⟨c.cont, c.stack, c.env⟩

-- The checkpoints that are left when the innermost one has been gone back to.
theorem checkpoints_of_cons {σ : List Slot} {s : Snapshot} {outer : List Snapshot}
    (h : checkpoints σ = s :: outer) : checkpoints s.stack.slots = outer := by
  fun_induction checkpoints σ
  case case1 => cases h
  case case2 =>
    cases h
    rfl
  case case3 hi => exact hi h

namespace Machine

variable {α β : Type} {m m' : Machine} {next : Step} {v : Value}

-- New pairs

def withStore (m : Machine) (s : Store) : Machine :=
  { m with image := { m.image with store := s } }

theorem cons_eq {a b : Value} : (liftM (Store.cons a b) : Run Value) m =
    match Store.alloc a b m.image.store with
    | .ok id s => .ok (.pair id) (m.withStore s)
    | .error fault s => .error fault (m.withStore s) := by
  show onImage (Image.onStore (Store.cons a b)) m = _
  simp only [onImage, Image.onStore, Store.cons, Bind.bind, EStateM.bind]
  cases Store.alloc a b m.image.store <;> rfl

-- What is detached comes first: if it fails, nothing has changed, else it is where the rest begins.
theorem Plain.bind_cases {x : Run α} {f : α → Run β} (hx : Plain True True x) (m : Machine) :
    (∃ fault m', (x >>= f) m = .error fault m' ∧ m'.resumable = m.resumable) ∨
    ∃ a m', x m = .ok a m' ∧ (x >>= f) m = f a m' ∧ m'.control = m.control ∧
      m'.snapshots = m.snapshots := by
  have hs := hx.spares_resumable m
  have hc := hx.control_left m
  simp only [Bind.bind, EStateM.bind]
  cases hr : x m <;> simp only [hr] at hs ⊢
  case error => exact .inl ⟨_, _, rfl, hs.left⟩
  case ok a m' => exact .inr ⟨a, m', rfl, rfl, left_of_ok hr ▸ hc, congrArg Prod.snd hs⟩

theorem Delivers.spares_resumable {y : Run Step} (h : Delivers True y) : Spares resumable y := by
  have ⟨x, hx, he⟩ := h
  exact he ▸ hx.spares_resumable.bind fun _ _ => rfl

-- Traps

theorem trap_resumable : match trap m with
    | .ok _ m' => m'.resumable = (m.control.snapshot :: m.checkpoints, m.snapshots)
    | .error _ m' => m'.resumable = m.resumable := by
  have hd : Plain True True (argl >>= single) := argl_plain.bind fun _ => single_plain
  rw [trap, ← bind_assoc]
  rcases hd.bind_cases m with ⟨_, _, hr, hs⟩ | ⟨exp, m', _, hr, hc, hs⟩ <;> rw [hr]
  case inl => exact hs
  case inr =>
    show (⟨m'.control.cont, .ofSlots m'.control.stack.slots, m'.control.env⟩ :: m'.checkpoints,
      m'.snapshots) = _
    rw [← Stack.eq_ofSlots, checkpoints, hc, hs]
    rfl

-- The machine back where a snapshot was taken.
def backAt (m : Machine) (s : Snapshot) : Machine :=
  { m with control := { m.control with env := s.env, cont := s.step, stack := s.stack } }

theorem resumable_backAt {s : Snapshot} {outer : List Snapshot} (h : m.checkpoints = s :: outer) :
    (m.backAt s).resumable = (outer, m.snapshots) := by
  have hs : (m.backAt s).checkpoints = outer := checkpoints_of_cons h
  rw [resumable, hs]
  rfl

-- The checkpoint on top of the stack is gone back to, with a new pair.
theorem trapDone_eq (h : Disciplined .trapDone m) : ∃ s outer, m.checkpoints = s :: outer ∧
    trapDone m = (liftM (Store.cons .truth m.control.val) >>= deliver) (m.backAt s) := by
  have ⟨c, σ, hσ⟩ := h.pending.exists_trap
  refine ⟨⟨c.cont, .ofSlots σ, c.env⟩, StepLisp.checkpoints σ, ?_, ?_⟩
  · rw [checkpoints, hσ, StepLisp.checkpoints]
  · simp only [trapDone, Bind.bind, EStateM.bind, liftM_of_ok (Control.popCheckpoint_eq hσ)]
    rfl

theorem unwind_eq : m.control.stack.unwind? =
    m.checkpoints.head?.map fun s => (⟨s.env, s.step⟩, s.stack) :=
  Stack.unwindSlots_eq

-- What the expression that a trap is set for delivers when it has failed.
def deliverFailure (fault : Fault) : Run Step := do
  let text ← liftM (Store.allocString fault.message)
  deliver (← liftM (Store.cons .nil text))

theorem deliverFailure_delivers {fault : Fault} : Delivers True (deliverFailure fault) :=
  .bind (store_plain Store.allocString_obeys) fun _ => cons_plain.delivers

theorem recover_of_checkpoint {fault : Fault} {s : Snapshot} {outer : List Snapshot}
    (hf : fault.isCatchable) (h : m.checkpoints = s :: outer) :
    recover fault m = deliverFailure fault (m.backAt s) := by
  have hu : Control.unwind m.control =
      .ok (some ⟨s.env, s.step⟩) { m.control with stack := s.stack } := by
    rw [Control.unwind, unwind_eq, h]
    rfl
  rw [recover, if_pos hf]
  simp only [Bind.bind, EStateM.bind, liftM_of_ok hu]
  rfl

-- A fault that cannot be caught, or that there is no checkpoint for, goes on.
theorem recover_of_not {fault : Fault} (h : fault.isCatchable → m.checkpoints = []) :
    recover fault m = .error fault m := by
  unfold recover
  split
  case isTrue hf =>
    have hu : Control.unwind m.control = .ok none m.control := by
      rw [Control.unwind, unwind_eq, h hf]
      rfl
    simp only [Bind.bind, EStateM.bind, liftM_of_ok hu]
    rfl
  case isFalse => rfl

-- A fault is caught by the innermost checkpoint, or goes on.
theorem recover_cases (fault : Fault) (m : Machine) : recover fault m = .error fault m ∨
    ∃ s outer, m.checkpoints = s :: outer ∧
      recover fault m = deliverFailure fault (m.backAt s) := by
  by_cases h : fault.isCatchable → m.checkpoints = []
  case pos => exact .inl <| recover_of_not h
  case neg =>
    have ⟨hf, hc⟩ := Classical.not_imp.mp h
    have ⟨s, outer, hc⟩ := List.exists_cons_of_ne_nil hc
    exact .inr ⟨s, outer, hc, recover_of_checkpoint hf hc⟩

-- Continuations

-- Whatever is in use goes back to where it did, and what is new goes back to the present state.
def Extends (m m' : Machine) : Prop :=
  ∀ i, m'.snapshots i = m.snapshots i ∨
    m.snapshots i = none ∧ m'.snapshots i = some m.control.snapshot

theorem Extends.of_eq (h : m'.snapshots = m.snapshots) : Extends m m' :=
  fun i => .inl <| congrFun h i

-- The present continuation becomes an object of its own.
theorem capture_bind_eq (h : m.image.store.Sound) {f : Value → Run β} :
    ∃ (id : ContinuationId) (m₁ : Machine), (capture >>= f) m = f (.continuation id) m₁ ∧
      m₁.control = m.control ∧ m.snapshots id.index = none ∧ m₁.image.store.Sound ∧
      ∀ i, m₁.snapshots i = if i = id.index then some m.control.snapshot else m.snapshots i := by
  have hs := h.continuations
  let k : Continuation := ⟨m.control.cont, m.control.stack, m.control.env, false⟩
  let s := { m.image.store with
    continuations := (m.image.store.continuations.insert k).2
    allocations := m.image.store.allocations + 1 }
  refine ⟨⟨(m.image.store.continuations.insert k).1⟩, m.withStore s, rfl, rfl, ?_,
    { h with continuations := hs.insert }, fun i => ?_⟩
  · simp only [snapshots, Image.snapshots, Slab.snapshots, hs.get?_insert_fst, Option.map_none]
  · simp only [snapshots, Image.snapshots, Slab.snapshots, withStore, s, hs.get?_insert]
    split <;> rfl

-- One more continuation, which goes back to where `m` stands.
structure Captured (m m' : Machine) (id : ContinuationId) : Prop where
  unused : m.snapshots id.index = none
  snapshots_eq (i : Nat) :
    m'.snapshots i = if i = id.index then some m.control.snapshot else m.snapshots i
  checkpoints_eq : m'.checkpoints = m.checkpoints

theorem Captured.extends {id : ContinuationId} (h : Captured m m' id) : Extends m m' := by
  intro i
  rw [h.snapshots_eq]
  split
  case isTrue hi => exact .inr ⟨hi ▸ h.unused, rfl⟩
  case isFalse => exact .inl rfl

-- What a captured continuation is handed to: the present one, or else a procedure.
def Hands (m : Machine) (args : Value) (id : ContinuationId) : Prop :=
  if args.isNil then m.control.val = .continuation id
  else m.image.store.uncons? m.control.argl = some (.continuation id, .nil)

theorem argl_bind_eq {f : Value → Run β} : (argl >>= f) m = f m.control.argl m :=
  rfl

theorem query_bind_eq {g : Store → α} {f : α → Run β} : (query g >>= f) m = f (g m.image.store) m :=
  rfl

theorem captureFor_spec (hs : m.image.store.Sound) {proc : Value} : match (do
      let k ← capture
      applyTo (← liftM (Store.cons k .nil)) proc : Run Step) m with
    | .ok _ m' => ∃ id, Captured m m' id ∧
      m'.image.store.uncons? m'.control.argl = some (.continuation id, .nil)
    | .error _ m' => m'.resumable = m.resumable ∨ ∃ id, Captured m m' id := by
  have ⟨id, m₁, hr, hc, hu, hs₁, hk⟩ := capture_bind_eq hs
    (f := fun k => liftM (Store.cons k .nil) >>= (applyTo · proc))
  have captured {m'} (h : m'.resumable = m₁.resumable) : Captured m m' id := by
    injection h with hch hsn
    refine ⟨hu, fun i => hsn ▸ hk i, ?_⟩
    rw [hch, checkpoints, checkpoints, hc]
  rw [hr]
  rcases cons_plain.bind_cases m₁ with ⟨_, _, hr, hs⟩ | ⟨l, m₂, hr, hr', hc₂, hs₂⟩
  case inl =>
    rw [hr]
    exact .inr ⟨id, captured hs⟩
  case inr =>
    rw [hr']
    refine ⟨id, captured ?_, ?_⟩
    · rw [resumable, resumable, checkpoints, checkpoints, ← hc₂, ← hs₂]
      rfl
    · rw [cons_eq] at hr
      rcases ha : Store.alloc (.continuation id) .nil m₁.image.store with ⟨l, s⟩ | _ <;>
        rw [ha] at hr <;> cases hr
      have hl := (Store.alloc_puts hs₁ ha).right.object?_eq _ |>.trans <| if_pos rfl
      show s.uncons? (.pair l) = _
      rw [Store.uncons?, Store.car_of_object? hl, Store.cdr_of_object? hl]

theorem callWithContinuation_spec (hs : m.image.store.Sound) : match callWithContinuation m with
    | .ok _ m' => ∃ id, Captured m m' id ∧ m'.Hands m.control.argl id
    | .error _ m' => m'.resumable = m.resumable ∨ ∃ id, Captured m m' id := by
  rw [callWithContinuation, argl_bind_eq]
  by_cases hn : m.control.argl.isNil
  case pos =>
    have ⟨id, m₁, hr, hc, hu, _, hk⟩ := capture_bind_eq hs (f := deliver)
    simp only [if_pos hn, hr, Hands]
    refine ⟨id, ⟨hu, hk, ?_⟩, rfl⟩
    rw [checkpoints, checkpoints, ← hc]
  case neg =>
    simp only [if_neg hn, query_bind_eq, Hands]
    cases hq : m.image.store.uncons? m.control.argl
    case none => exact .inl rfl
    case some p =>
      obtain ⟨proc, rest⟩ := p
      cases rest
      case nil =>
        by_cases hp : proc.isProcedure
        case pos =>
          simp only [if_pos hp]
          exact captureFor_spec hs
        case neg =>
          simp only [if_neg hp]
          exact .inl rfl
      all_goals exact .inl rfl

-- The value that a continuation is applied to.
def Supplies (m : Machine) (v : Value) : Prop :=
  m.control.argl = .nil ∧ v = .nil ∨ m.image.store.uncons? m.control.argl = some (v, .nil)

theorem continuation_of_snapshots {id : ContinuationId} {s : Snapshot}
    (h : m.snapshots id.index = some s) :
    ∃ k, m.image.store.continuation id = .ok k ∧ k.snapshot = s := by
  have ⟨k, hk, hs⟩ := Option.map_eq_some_iff.mp h
  exact ⟨k, by rw [Store.continuation, hk]; rfl, hs⟩

theorem snapshots_of_continuation {id : ContinuationId} {k : Continuation}
    (h : m.image.store.continuation id = .ok k) : m.snapshots id.index = some k.snapshot := by
  unfold Store.continuation Store.present at h
  split at h <;> cases h
  exact Option.map_eq_some_iff.mpr ⟨k, ‹_›, rfl⟩

-- The control state that a continuation leaves behind.
def resumed (c : Control) (s : Snapshot) (v : Value) : Control :=
  { c with
    env := s.env, cont := s.step, val := v, stack := s.stack
    highWater := max c.highWater s.stack.depth }

theorem resume_eq {id : ContinuationId} {s : Snapshot} (hs : m.snapshots id.index = some s)
    (hv : m.Supplies v) : resume id m = .ok s.step { m with control := resumed m.control s v } := by
  have ⟨k, hk, hs⟩ := continuation_of_snapshots hs
  have ha : resumeArgument m = .ok v m := by
    simp only [resumeArgument, argl_bind_eq, query_bind_eq]
    rcases hv with ⟨hn, rfl⟩ | hu
    case inl =>
      rw [hn]
      rfl
    case inr =>
      rw [hu]
      rfl
  simp only [resume, Bind.bind, EStateM.bind, ha, queryOrFail, hk, ← hs]
  rfl

theorem resume_spec (id : ContinuationId) : match resume id m with
    | .ok _ m' => m'.snapshots = m.snapshots ∧ m.snapshots id.index = some m'.control.snapshot
    | .error _ m' => m'.resumable = m.resumable := by
  rw [resume]
  rcases resumeArgument_plain.bind_cases m with ⟨_, _, hr, hs⟩ | ⟨v, m₁, hr, hr', hc, hs⟩
  case inl =>
    rw [hr]
    exact hs
  case inr =>
    rw [hr']
    simp only [Bind.bind, EStateM.bind, queryOrFail]
    cases hk : m₁.image.store.continuation id
    case error => simp [resumable, checkpoints, hc, hs]
    case ok k => exact ⟨hs, hs ▸ snapshots_of_continuation hk⟩

-- Steps

theorem step_of_builtin {b : Builtin} (h : next.builtin? = some b) : step next = b.run := by
  cases next <;> try cases h
  case apply v =>
    cases v <;> try cases h
    simp only [step, applyProc, show Builtin.ofId? _ = some b from h]

theorem run_of_capture {b : Builtin} (h : b.isCapture) : b.run = callWithContinuation := by
  cases b <;> first | rfl | cases h

-- What a step that succeeds does to what can be gone back to.
inductive Turns (m : Machine) : Step → Machine → Prop
  | plain {k : Step} {m' : Machine} : ¬k.Marks → m'.resumable = m.resumable → Turns m k m'
  | trap {k : Step} {m' : Machine} : k.builtin? = some .trap →
    m'.resumable = (m.control.snapshot :: m.checkpoints, m.snapshots) → Turns m k m'
  | trapDone {s outer} {m' : Machine} : m.checkpoints = s :: outer →
    m'.resumable = (outer, m.snapshots) → Turns m .trapDone m'
  | resume {id} {m' : Machine} : m.snapshots id.index = some m'.control.snapshot →
    m'.snapshots = m.snapshots → Turns m (.apply (.continuation id)) m'
  | capture {k : Step} {b id} {m' : Machine} : k.builtin? = some b → b.isCapture →
    Captured m m' id → m'.Hands m.control.argl id → Turns m k m'

-- What a step that fails does to it. The checkpoint of a trap that is done is lost.
inductive Fails (m : Machine) : Step → Machine → Prop
  | plain {k : Step} {m' : Machine} : k ≠ .trapDone → m'.resumable = m.resumable → Fails m k m'
  | trapDone {s outer} {m' : Machine} : m.checkpoints = s :: outer →
    m'.resumable = (outer, m.snapshots) → Fails m .trapDone m'
  | capture {k : Step} {id} {m' : Machine} : k ≠ .trapDone → Captured m m' id → Fails m k m'

theorem trapDone_resumable (hd : Disciplined .trapDone m) : ∃ s outer, m.checkpoints = s :: outer ∧
    (trapDone.left m).resumable = (outer, m.snapshots) := by
  have ⟨s, outer, hc, he⟩ := trapDone_eq hd
  have hy : Delivers True (liftM (Store.cons .truth m.control.val) >>= deliver) :=
    cons_plain.delivers
  have hl := hy.spares_resumable.view_left (m.backAt s)
  refine ⟨s, outer, hc, ?_⟩
  rw [← resumable_backAt hc, ← hl, left, left, he]

theorem captured_of_step {next' : Step} {b : Builtin} (hs : m.image.store.Sound)
    (hb : next.builtin? = some b) (hc : b.isCapture) (h : step next m = .ok next' m') :
    ∃ id, Captured m m' id ∧ m'.Hands m.control.argl id := by
  have hk := callWithContinuation_spec hs
  rw [step_of_builtin hb, run_of_capture hc] at h
  rwa [h] at hk

theorem step_turns {next' : Step} (hd : Disciplined next m) (hs : m.image.store.Sound)
    (h : step next m = .ok next' m') : Turns m next m' := by
  by_cases hm : next.Marks
  case neg =>
    have hg := step_guards hm m
    simp only [h] at hg
    exact .plain hm hg
  case pos =>
    cases hm
    case trapDone =>
      have ⟨s, outer, hc, hl⟩ := trapDone_resumable hd
      exact .trapDone hc (left_of_ok h ▸ hl)
    case resume id =>
      have hr := resume_spec (m := m) id
      rw [show resume id m = .ok next' m' from h] at hr
      exact .resume hr.right hr.left
    case trap hb =>
      have ht := trap_resumable (m := m)
      rw [step_of_builtin hb] at h
      rw [show trap m = .ok next' m' from h] at ht
      exact .trap hb ht
    case capture hc hb =>
      have ⟨id, hk, hh⟩ := captured_of_step hs hb hc h
      exact .capture hb hc hk hh

theorem step_fails {fault : Fault} (hd : Disciplined next m) (hs : m.image.store.Sound)
    (h : step next m = .error fault m') : Fails m next m' := by
  by_cases hm : next.Marks
  case neg =>
    have hg := step_guards hm m
    simp only [h] at hg
    exact .plain (fun ht => hm <| ht ▸ .trapDone) <| hg <| hd.proper_of_step h
  case pos =>
    cases hm
    case trapDone =>
      have ⟨s, outer, hc, hl⟩ := trapDone_resumable hd
      exact .trapDone hc (left_of_error h ▸ hl)
    case resume id =>
      have hr := resume_spec (m := m) id
      rw [show resume id m = .error fault m' from h] at hr
      exact .plain nofun hr
    case trap hb =>
      have ht := trap_resumable (m := m)
      rw [step_of_builtin hb] at h
      rw [show trap m = .error fault m' from h] at ht
      exact .plain (fun he => by cases he ▸ hb) ht
    case capture hc hb =>
      have hk := callWithContinuation_spec hs
      rw [step_of_builtin hb, run_of_capture hc] at h
      rw [h] at hk
      have hn : next ≠ .trapDone := fun he => by cases he ▸ hb
      rcases hk with hk | ⟨id, hk⟩
      · exact .plain hn hk
      · exact .capture hn hk

theorem Turns.extends (h : Turns m next m') : Extends m m' := by
  cases h
  case plain h => exact .of_eq <| congrArg Prod.snd h
  case trap h => exact .of_eq <| congrArg Prod.snd h
  case trapDone h => exact .of_eq <| congrArg Prod.snd h
  case resume h => exact .of_eq h
  case capture h _ => exact h.extends

theorem Fails.extends (h : Fails m next m') : Extends m m' := by
  cases h
  case plain h => exact .of_eq <| congrArg Prod.snd h
  case trapDone h => exact .of_eq <| congrArg Prod.snd h
  case capture h => exact h.extends

end Machine
end StepLisp
