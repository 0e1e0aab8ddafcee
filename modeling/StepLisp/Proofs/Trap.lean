import StepLisp.Proofs.Resumption

namespace StepLisp

open Act Machine Relation

-- The traps that are active, the innermost first, and those that were when a continuation was
-- captured. A trap is known by where the machine stood when it was entered.
structure Log where
  active : List Snapshot := []
  saved : Nat → List Snapshot := fun _ => []

namespace Log

def entered (log : Log) (k : Step) (c : Control) : List Snapshot :=
  match k with
  | .trapDone => log.active.tail
  | .apply (.continuation id) => log.saved id.index
  | k => if k.builtin? = some .trap then c.snapshot :: log.active else log.active

-- A trap whose expression is done is left, also if nothing can be delivered.
def failed (log : Log) : Step → List Snapshot
  | .trapDone => log.active.tail
  | _ => log.active

-- A step is taken. If it fails, the innermost trap catches the fault and is left. A handle that
-- comes into use stands for a continuation within the traps that are active.
def stepped (log : Log) (k : Step) (m : Machine) : Log where
  active :=
    match step k m with
    | .ok .. => log.entered k m.control
    | .error .. => (log.failed k).tail
  saved i := if (m.snapshots i).isSome then log.saved i else log.active

def after (log : Log) : Stage → Log
  | .running _ _ .halt _ => log
  | .running _ (_ + 1) k m => log.stepped k (m.countStep.collectBefore k)
  | .reading .. => { log with active := [] }
  | _ => log

end Log

-- The stages of all sessions, each with a log of what has led to it.
inductive Logged : Log → Stage → Prop
  | bare {settings host output m} : bare settings host output = .ok m → Logged {} (.idle m)
  | move {log t t'} : Logged log t → Moves t t' → Logged (log.after t) t'

theorem Logged.reached {log : Log} {t : Stage} (h : Logged log t) : Reached t := by
  induction h
  case bare h => exact ⟨_, _, _, _, h, .refl⟩
  case move hm hi => exact hi.course <| .single hm

-- Every stage has a log.
theorem exists_logged {t : Stage} (h : Reached t) : ∃ log, Logged log t := by
  obtain ⟨_, _, _, m, hb, hc⟩ := h
  induction hc
  case refl => exact ⟨_, .bare hb⟩
  case tail hm hi =>
    have ⟨_, hl⟩ := hi
    exact ⟨_, hl.move hm⟩

section Accounts

variable {log : Log} {k k' : Step} {m m' : Machine}

-- Continuations go back to the traps that were active when they were captured.
def Log.Keeps (log : Log) (m : Machine) : Prop :=
  ∀ i s, m.snapshots i = some s → checkpoints s.stack.slots = log.saved i

def Log.Accounts (log : Log) (m : Machine) : Prop :=
  m.checkpoints = log.active ∧ log.Keeps m

theorem Log.entered_of_not_marks {c : Control} (h : ¬k.Marks) : log.entered k c = log.active := by
  unfold entered
  split
  case h_1 => exact absurd .trapDone h
  case h_2 => exact absurd .resume h
  case h_3 => exact if_neg fun ht => h <| .trap ht

theorem Log.entered_of_builtin {c : Control} {b : Builtin} (h : k.builtin? = some b) :
    log.entered k c = if b = .trap then c.snapshot :: log.active else log.active := by
  unfold entered
  split
  case h_1 => cases h
  case h_2 => cases h
  case h_3 => simp only [h, Option.some.injEq]

theorem Log.Keeps.of_extends (h : log.Accounts m) (he : Extends m m') :
    (log.stepped k m).Keeps m' := by
  intro i s hs
  rcases he i with he | ⟨hn, he⟩
  case inl =>
    rw [he] at hs
    simp only [stepped, hs, Option.isSome_some, if_true]
    exact h.right i s hs
  case inr =>
    cases he.symm.trans hs
    simp only [stepped, hn, Option.isSome_none, Bool.false_eq_true, if_false]
    exact h.left

theorem Log.Accounts.turns (h : log.Accounts m) (hk : step k m = .ok k' m') (ht : Turns m k m') :
    (log.stepped k m).Accounts m' := by
  refine ⟨?_, .of_extends h ht.extends⟩
  have ha : (log.stepped k m).active = log.entered k m.control := by
    simp only [stepped, hk]
  rw [ha]
  cases ht
  case plain hn he =>
    rw [entered_of_not_marks hn, ← h.left]
    exact congrArg Prod.fst he
  case trap hb he =>
    rw [entered_of_builtin hb, if_pos rfl, ← h.left]
    exact congrArg Prod.fst he
  case trapDone hc he =>
    rw [entered, ← h.left, hc]
    exact congrArg Prod.fst he
  case resume hs _ => exact h.right _ _ hs
  case capture hc hb hm _ =>
    rw [entered_of_builtin hb, if_neg (by rintro rfl; cases hc), ← h.left]
    exact hm.checkpoints_eq

theorem Log.Accounts.fails (h : log.Accounts m) (hf : Fails m k m') :
    m'.checkpoints = log.failed k ∧ (log.stepped k m).Keeps m' := by
  refine ⟨?_, .of_extends h hf.extends⟩
  cases hf
  case plain hn he =>
    rw [failed.eq_2 _ _ hn, ← h.left]
    exact congrArg Prod.fst he
  case trapDone hc he =>
    rw [failed, ← h.left, hc]
    exact congrArg Prod.fst he
  case capture hn hm =>
    rw [failed.eq_2 _ _ hn, ← h.left]
    exact hm.checkpoints_eq

theorem Log.Keeps.of_eq (h : log.Keeps m) (he : m'.snapshots = m.snapshots) : log.Keeps m' :=
  fun i s hs => h i s <| he ▸ hs

theorem Log.Accounts.collectBefore (h : log.Accounts m) :
    log.Accounts (m.countStep.collectBefore k) := by
  refine ⟨?_, fun i s hs => ?_⟩
  · rw [Machine.checkpoints, control_collectBefore]
    exact h.left
  · rcases snapshots_collectBefore i with he | hn
    case inl => exact h.right i s <| he.symm.trans hs
    case inr => cases hn.symm.trans hs

theorem Log.checkpoints_of_recover {fault : Fault} (hc : m.checkpoints = log.failed k)
    (h : recover fault m = .ok k' m') : m'.checkpoints = (log.failed k).tail := by
  rcases recover_cases fault m with hr | ⟨s, outer, hs, hr⟩ <;> rw [hr] at h
  case inl => cases h
  case inr =>
    have hl := deliverFailure_delivers.spares_resumable.view_left (m.backAt s)
      (x := deliverFailure fault)
    rw [left_of_ok h, resumable_backAt hs] at hl
    rw [← hc, hs]
    exact congrArg Prod.fst hl

theorem Log.Accounts.advance (h : log.Accounts m)
    (hr : (m.countStep.collectBefore k).Ready k) : match advance k m with
    | .ok _ m' => (log.stepped k (m.countStep.collectBefore k)).Accounts m'
    | .error _ m' => (log.stepped k (m.countStep.collectBefore k)).Keeps m' := by
  have hp : log.Accounts (m.countStep.collectBefore k) := h.collectBefore
  simp only [Machine.advance]
  cases hs : step k (m.countStep.collectBefore k)
  case ok => exact hp.turns hs <| step_turns hr.disciplined hr.sound hs
  case error fault m₁ =>
    have ⟨hc, hk⟩ := hp.fails <| step_fails hr.disciplined hr.sound hs
    have ha : (log.stepped k (m.countStep.collectBefore k)).active = (log.failed k).tail := by
      simp only [stepped, hs]
    simp only
    cases hr : Machine.recover fault m₁
    case ok =>
      exact ⟨ha ▸ checkpoints_of_recover hc hr, hk.of_eq <| left_of_ok hr ▸ recover_snapshots⟩
    case error => exact hk.of_eq <| left_of_error hr ▸ recover_snapshots

end Accounts

theorem snapshots_of_bare {settings : Settings} {host : Host} {output : Output} {m : Machine}
    (h : bare settings host output = .ok m) (i : Nat) : m.snapshots i = none :=
  congrArg (Slab.snapshots · i) (evolves_of_bare h).continuations_eq

theorem Log.after_running {log : Log} {rest : Reader.Contents (Datum × Nat)} {n : Nat} {k : Step}
    {m : Machine} (h : k ≠ .halt) :
    log.after (.running rest (n + 1) k m) = log.stepped k (m.countStep.collectBefore k) := by
  cases k
  case halt => contradiction
  all_goals rfl

-- The checkpoints on the stack are the traps that the log has as active.
theorem Logged.accounts {log : Log} {t : Stage} (h : Logged log t) :
    t.Holds log.Keeps fun _ => log.Accounts := by
  induction h
  case bare h =>
    intro i s hs
    cases (snapshots_of_bare h i).symm.trans hs
  case move log t t' hl hm hi =>
    have hr := hl.reached
    cases hm
    case request | finish => exact hi
    case define => exact Log.Keeps.of_eq hi <| snapshots_left define_between
    case start hb => exact ⟨rfl, Log.Keeps.of_eq hi <| left_of_ok hb ▸ build_snapshots⟩
    case unbuilt hb => exact Log.Keeps.of_eq hi <| left_of_error hb ▸ build_snapshots
    case reject => exact Log.Keeps.of_eq hi <| snapshots_left <| onImage_between Image.reject_obeys
    case halt => exact hi.right
    case limit k _ hn =>
      cases k
      case halt => contradiction
      all_goals exact hi.right
    case step hn ha | fault hn ha =>
      have h := Log.Accounts.advance hi hr.ready
      rw [ha] at h
      rw [Log.after_running hn]
      exact h

section Pairs

theorem Store.Puts.of_object? {s s' : Store} {r r' : Ref} {o o' : Object} (hp : s.Puts r o s')
    (hn : s.object? r = none) (h : s.object? r' = some o') : s'.object? r' = some o' := by
  refine (hp.object?_eq r').trans <| (if_neg ?_).trans h
  rintro rfl
  cases hn.symm.trans h

variable {k : Step} {m m' : Machine} {a b : Value} {fault : Fault}

-- The value register holds a pair that was not there before.
def Machine.HoldsNewPair (m m' : Machine) (a b : Value) : Prop :=
  ∃ id, m'.control.val = .pair id ∧ m.image.store.object? id.ref = none ∧
    m'.image.store.object? id.ref = some (.cell ⟨a, b⟩)

-- A machine that delivers a new pair is where it was.
structure Machine.DeliversPair (m : Machine) (a b : Value) (k : Step) (m' : Machine) : Prop where
  next_eq : k = m.control.cont
  snapshot_eq : m'.control.snapshot = m.control.snapshot
  holdsNewPair : m.HoldsNewPair m' a b
  others {r o} : m.image.store.object? r = some o → m'.image.store.object? r = some o

theorem consDeliver_of_ok (hs : m.image.store.Sound)
    (h : (liftM (Store.cons a b) >>= deliver : Run Step) m = .ok k m') :
    m.DeliversPair a b k m' := by
  simp only [Bind.bind, EStateM.bind, cons_eq] at h
  cases hr : Store.alloc a b m.image.store <;> simp only [hr] at h <;> cases h
  have ⟨hn, hp⟩ := Store.alloc_puts hs hr
  constructor
  case next_eq | snapshot_eq => rfl
  case holdsNewPair => exact ⟨_, rfl, hn, (hp.object?_eq _).trans (if_pos rfl)⟩
  case others => exact hp.of_object? hn

theorem consDeliver_of_hasRoom (h : m.image.store.HasRoom) :
    ∃ k m', (liftM (Store.cons a b) >>= deliver : Run Step) m = .ok k m' := by
  have ⟨id, s, ha⟩ := Store.alloc_of_hasRoom h (a := a) (b := b)
  simp only [Bind.bind, EStateM.bind, cons_eq, ha]
  exact ⟨_, _, rfl⟩

theorem consDeliver_of_not_hasRoom (h : ¬m.image.store.HasRoom) :
    ∃ m', (liftM (Store.cons a b) >>= deliver : Run Step) m =
      .error (.heapExhausted m.image.store.totalCells) m' := by
  simp only [Bind.bind, EStateM.bind, cons_eq, Store.alloc_of_not_hasRoom h]
  exact ⟨_, rfl⟩

-- The text of a fault is put down first. That takes no cell.
theorem deliverFailure_eq (fault : Fault) (hs : m.image.store.Sound) :
    ∃ (id : StringId) (s : Store),
    deliverFailure fault m =
      (liftM (Store.cons .nil (.string id)) >>= deliver : Run Step) (m.withStore s) ∧
    m.image.store.object? id.ref = none ∧
    m.image.store.Puts id.ref (.string fault.message) s ∧
    (s.HasRoom ↔ m.image.store.HasRoom) ∧ s.totalCells = m.image.store.totalCells := by
  have ⟨id, s, ha, hn, hp⟩ := Store.allocString_puts fault.message hs
  have ht : (liftM (Store.allocString fault.message) : Run Value) m =
      .ok (.string id) (m.withStore s) := by
    show onImage (Image.onStore (Store.allocString _)) m = _
    simp only [onImage, Image.onStore, ha]
    rfl
  refine ⟨id, s, ?_, hn, hp, ?_⟩
  · simp only [deliverFailure, Bind.bind, EStateM.bind, ht]
  · cases ha
    exact ⟨.rfl, rfl⟩

theorem deliverFailure_of_ok (hs : m.image.store.Sound) (h : deliverFailure fault m = .ok k m') :
    ∃ id : StringId, m.DeliversPair .nil (.string id) k m' ∧
      m'.image.store.object? id.ref = some (.string fault.message) := by
  have ⟨id, s, he, hn, hp, _⟩ := deliverFailure_eq fault hs
  rw [he] at h
  have hd := consDeliver_of_ok hp.sound h
  have ht : s.object? id.ref = some (.string fault.message) :=
    (hp.object?_eq _).trans (if_pos rfl)
  have ⟨l, hl, hf, hc⟩ := hd.holdsNewPair
  refine ⟨id, ⟨hd.next_eq, hd.snapshot_eq, ⟨l, hl, ?_, hc⟩, ?_⟩, hd.others ht⟩
  · by_contra ho
    have ⟨o, ho⟩ := Option.ne_none_iff_exists'.mp ho
    cases hf.symm.trans <| hp.of_object? hn ho
  · exact fun ho => hd.others <| hp.of_object? hn ho

theorem deliverFailure_of_hasRoom (fault : Fault) (hs : m.image.store.Sound)
    (h : m.image.store.HasRoom) : ∃ k m', deliverFailure fault m = .ok k m' := by
  have ⟨id, s, he, _, _, hr, _⟩ := deliverFailure_eq fault hs
  rw [he]
  exact consDeliver_of_hasRoom <| hr.mpr h

theorem deliverFailure_of_not_hasRoom (hs : m.image.store.Sound) (h : ¬m.image.store.HasRoom) :
    ∃ m', deliverFailure fault m = .error (.heapExhausted m.image.store.totalCells) m' := by
  have ⟨id, s, he, _, _, hr, ht⟩ := deliverFailure_eq fault hs
  rw [he, ← ht]
  exact consDeliver_of_not_hasRoom fun hs => h <| hr.mp hs

end Pairs

section Main

variable {rest : Reader.Contents (Datum × Nat)} {n : Nat} {k : Step} {m : Machine}

-- Whatever a session has been through, the checkpoints on the stack are the traps that are active.
-- When one is done, or catches a fault, the machine is back where it was entered: the next step,
-- the continuation, the stack and the environment are those of then. It is always the innermost.
theorem trap_exact {log : Log} (h : Logged log (.running rest n k m)) :
    m.checkpoints = log.active ∧
    (∀ k' m', k = .trapDone → step k (m.countStep.collectBefore k) = .ok k' m' →
      ∃ s, log.active.head? = some s ∧ k' = s.step ∧ m'.control.snapshot = s ∧
        (m.countStep.collectBefore k).HoldsNewPair m' .truth m.control.val) ∧
    ∀ fault m₁, step k (m.countStep.collectBefore k) = .error fault m₁ →
      m₁.checkpoints = log.failed k ∧
      ∀ k' m', recover fault m₁ = .ok k' m' →
        ∃ s, (log.failed k).head? = some s ∧ k' = s.step ∧ m'.control.snapshot = s ∧
          ∃ text : StringId, m₁.HoldsNewPair m' .nil (.string text) ∧
            m'.image.store.object? text.ref = some (.string fault.message) := by
  have ha := h.accounts
  have hr := h.reached.ready
  refine ⟨ha.left, ?_, fun fault m₁ hs => ?_⟩
  case refine_1 =>
    rintro k' m' rfl hs
    have ⟨s, outer, hc, he⟩ := trapDone_eq hr.disciplined
    have hd := consDeliver_of_ok (m := Machine.backAt _ s) hr.sound <| he.symm.trans hs
    rw [control_collectBefore] at hd
    refine ⟨s, ?_, hd.next_eq, hd.snapshot_eq, hd.holdsNewPair⟩
    rw [← ha.collectBefore.left, hc, List.head?_cons]
  case refine_2 =>
    have ⟨hc, _⟩ := ha.collectBefore.fails <| step_fails hr.disciplined hr.sound hs
    refine ⟨hc, fun k' m' hrec => ?_⟩
    rcases recover_cases fault m₁ with he | ⟨s, outer, hs', he⟩ <;> rw [he] at hrec
    case inl => cases hrec
    case inr =>
      have hsound := hr.sound_of_error hs
      have ⟨text, hd, ht⟩ := deliverFailure_of_ok (m := m₁.backAt s) hsound hrec
      refine ⟨s, ?_, hd.next_eq, hd.snapshot_eq, text, hd.holdsNewPair, ht⟩
      rw [← hc, hs', List.head?_cons]

-- On a machine that has been built, a trap is entered and done.
def traps (m : Machine) : Bool :=
  match (Stage.reading (Reader.walk "(trap 1)".toList) m).next.next.next.next with
  | .running _ _ .trapDone m =>
    (step .trapDone (m.countStep.collectBefore .trapDone) matches .ok ..)
  | _ => false

theorem trap_exact_done : ∃ log rest n m s k' m', Logged log (.running rest n .trapDone m) ∧
    step .trapDone (m.countStep.collectBefore .trapDone) = .ok k' m' ∧
      log.active.head? = some s ∧ k' = s.step ∧ m'.control.snapshot = s := by
  obtain ⟨m, hb, ht⟩ := exists_bare_of {} default {} traps (by decide +kernel)
  unfold traps at ht
  split at ht <;> try exact absurd ht Bool.false_ne_true
  case h_1 rest n m₁ hA =>
    split at ht <;> try exact absurd ht Bool.false_ne_true
    case h_1 k' m' hs =>
      have h₀ : Reached (.reading (Reader.walk "(trap 1)".toList) m) :=
        reached_request (.bare hb) _
      obtain ⟨log, hl⟩ := exists_logged <| hA ▸ h₀.next.next.next.next
      obtain ⟨s, ha, hk, hm, _⟩ := (trap_exact hl).right.left k' m' rfl hs
      exact ⟨log, rest, n, m₁, s, k', m', hl, hs, ha, hk, hm⟩

-- A fault is caught if there is a trap for it and a cell to tell of it. Without a cell it is lost,
-- and the machine complains of the heap instead.
theorem fault_caught {fault : Fault} {m₁ : Machine} (h : Reached (.running rest n k m))
    (hs : step k (m.countStep.collectBefore k) = .error fault m₁) :
    (fault.isCatchable = false ∨ m₁.checkpoints = [] → advance k m = .error fault m₁) ∧
    ∀ s outer, fault.isCatchable → m₁.checkpoints = s :: outer →
      (m₁.image.store.HasRoom → ∃ m', advance k m = .ok s.step m' ∧ m'.control.snapshot = s ∧
        ∃ text : StringId, m₁.HoldsNewPair m' .nil (.string text) ∧
          m'.image.store.object? text.ref = some (.string fault.message)) ∧
      (¬m₁.image.store.HasRoom →
        ∃ m', advance k m = .error (.heapExhausted m₁.image.store.totalCells) m') := by
  have ha : advance k m = recover fault m₁ := by simp only [advance, hs]
  rw [ha]
  refine ⟨fun hn => recover_of_not fun hf => ?_, fun s outer hf hc => ?_⟩
  · exact hn.resolve_left <| by simp [hf]
  · have hsound := h.ready.sound_of_error hs
    rw [recover_of_checkpoint hf hc]
    constructor
    case left =>
      intro hm
      obtain ⟨k', m', hr⟩ := deliverFailure_of_hasRoom (m := m₁.backAt s) fault hsound hm
      obtain ⟨text, hd, ht⟩ := deliverFailure_of_ok (m := m₁.backAt s) hsound hr
      have hk : k' = s.step := hd.next_eq
      exact ⟨m', hk ▸ hr, hd.snapshot_eq, text, hd.holdsNewPair, ht⟩
    case right => exact deliverFailure_of_not_hasRoom (m := m₁.backAt s) hsound

-- The arena is full, and the fault that says so is not caught although there is a trap.
def exhausts (m : Machine) : Bool :=
  match (Stage.reading (Reader.walk "(trap (range 0 50 1))".toList) m).next.next.next.next with
  | .running _ _ k m =>
    match step k (m.countStep.collectBefore k) with
    | .error fault m => fault.isCatchable && !m.checkpoints.isEmpty &&
      m.image.store.freeCells.isEmpty && m.image.store.capacity ≤ m.image.store.totalCells
    | .ok .. => false
  | _ => false

theorem fault_caught_exhausted : ∃ rest n k m fault m₁ m', Reached (.running rest n k m) ∧
    step k (m.countStep.collectBefore k) = .error fault m₁ ∧ fault.isCatchable ∧
      m₁.checkpoints ≠ [] ∧ advance k m = .error (.heapExhausted m₁.image.store.totalCells) m' := by
  obtain ⟨m, hb, ht⟩ := exists_bare_of { heapCells := 16 } default {} exhausts (by decide +kernel)
  unfold exhausts at ht
  split at ht <;> try exact absurd ht Bool.false_ne_true
  case h_1 rest n k m₀ hA =>
    split at ht <;> try exact absurd ht Bool.false_ne_true
    case h_1 fault m₁ hs =>
      simp only [Bool.and_eq_true, Bool.not_eq_true', decide_eq_true_eq, List.isEmpty_iff,
        List.isEmpty_eq_false_iff] at ht
      obtain ⟨⟨⟨hf, hc⟩, hfree⟩, hn⟩ := ht
      have h₀ : Reached (.reading (Reader.walk "(trap (range 0 50 1))".toList) m) :=
        reached_request (.bare hb) _
      have hr : Reached (.running rest n k m₀) := hA ▸ h₀.next.next.next.next
      obtain ⟨s, outer, hs'⟩ := List.exists_cons_of_ne_nil hc
      obtain ⟨m', ha⟩ := ((fault_caught hr hs).right s outer hf hs').right fun h =>
        h.elim (· hfree) <| Nat.not_lt.mpr hn
      exact ⟨rest, n, k, m₀, fault, m₁, m', hr, hs, hf, hc, ha⟩

end Main

end StepLisp
