import StepLisp.Machine.Boot
import StepLisp.Proofs.Act
import StepLisp.Proofs.Store.Sound

namespace StepLisp

inductive Request
  | eval (text : String)
  -- Binds a name in the global frame to the first datum of a text.
  | define (name text : String)

def Request.serve : Request → Run Value
  | eval text => Machine.evalText text
  | define name text => do
    let v ← Machine.read text
    Machine.defineGlobal name v
    return v

open Act

namespace Machine

-- The machines that sessions come across. One that is built evaluates the prelude while it is bare.
inductive Arises : Machine → Prop
  | bare {settings host output m} : bare settings host output = .ok m → Arises m
  | new {settings host output m} : new settings host output = .ok m → Arises m
  | serve {request : Request} {m} : Arises m → Arises (request.serve.left m)

def started (m : Machine) (exp : Value) : Machine :=
  { m with control := .start exp m.global, steps := 0 }

theorem built_of_around {settings : Settings} {host : Host} {output : Output} {m : Machine}
    {built : EStateM.Result Fault Image FrameId} (h : around settings host output built = .ok m) :
    built = .ok m.global m.image := by
  cases built <;> cases h
  rfl

theorem settings_of_around {settings : Settings} {host : Host} {output : Output} {m : Machine}
    {built : EStateM.Result Fault Image FrameId} (h : around settings host output built = .ok m) :
    m.settings = settings := by
  cases built <;> cases h
  rfl

theorem install_ok {global : FrameId} (i : Nat) (builtins : List Builtin) {image : Image}
    {f : Frame} (hs : image.store.Sound) (hf : image.store.object? global.ref = some (.frame f)) :
    ∃ image', install global i builtins image = .ok () image' := by
  induction builtins generalizing i image f
  case nil => exact ⟨image, rfl⟩
  case cons b rest hi =>
    have ⟨s, hd, hp⟩ := Store.define_puts (x := (image.symbols.intern b.name).1) (v := .builtin ⟨i⟩)
      hs hf
    have ⟨image', hr⟩ := @hi (i + 1) ⟨s, (image.symbols.intern b.name).2⟩ _ hp.sound <|
      (hp.object?_eq _).trans (if_pos rfl)
    refine ⟨image', ?_⟩
    simp only [install, Bind.bind, EStateM.bind, Image.intern]
    rw [show (liftM (Store.define global (image.symbols.intern b.name).1 (.builtin ⟨i⟩)) :
      Act Image Unit) = Image.onStore (Store.define global _ _) from rfl]
    simp only [Image.onStore, hd, hr]

theorem globals_ok (image : Image) (h : image.store.Sound) :
    ∃ global image', globals image = .ok global image' := by
  have ⟨global, s, ha, _, hp⟩ := Store.allocFrame_puts none h
  have hf : s.object? global.ref = some (.frame { parent := none }) :=
    (hp.object?_eq _).trans (if_pos rfl)
  have ⟨image', hi⟩ := @install_ok global 0 Builtin.all.toList ⟨s, image.symbols⟩ _ hp.sound hf
  refine ⟨global, image', ?_⟩
  rw [globals, show (liftM (Store.allocFrame none) : Act Image FrameId) =
    Image.onStore (Store.allocFrame none) from rfl]
  simp only [Bind.bind, EStateM.bind, Image.onStore, ha, hi]
  rfl

-- A bare machine can always be built.
theorem exists_bare (settings : Settings) (host : Host) (output : Output) :
    ∃ m, Machine.bare settings host output = .ok m := by
  have ⟨global, image, h⟩ := globals_ok (.new settings.heapCells settings.gcThreshold) .new
  exact ⟨_, by rw [Machine.bare, h, around]⟩

theorem exists_bare_of (settings : Settings) (host : Host) (output : Output) (p : Machine → Bool)
    (h : (Machine.bare settings host output).toOption.any p) :
    ∃ m, Machine.bare settings host output = .ok m ∧ p m := by
  have ⟨m, hb⟩ := exists_bare settings host output
  rw [hb] at h
  exact ⟨m, hb, h⟩

theorem left_of_load {text : String} {m m' : Machine} (h : load text m = .ok m') :
    (evalText text).left m = m' := by
  unfold load at h
  split at h <;> cases h
  exact left_of_ok ‹_›

theorem exists_of_bind_eq_ok {x : Except Fault Machine} {f : Machine → Except Fault Machine}
    {m : Machine} (h : x >>= f = .ok m) : ∃ m₀, x = .ok m₀ ∧ f m₀ = .ok m := by
  cases x
  case error => cases h
  case ok m₀ => exact ⟨m₀, rfl, h⟩

-- Whether the machine passes a test once it has evaluated a text.
def passesAfter (settings : Settings) (text : List Char) (p : Machine → Bool) : Bool :=
  match bare settings default {} with
  | .ok m =>
    match evalData (Reader.walk text).data .nil m with
    | .ok _ m => (Reader.walk text).defect.isNone && p m
    | .error .. => false
  | .error _ => false

theorem exists_load_of {settings : Settings} {text : String} {p : Machine → Bool}
    (h : passesAfter settings text.toList p) :
    ∃ m, Machine.bare settings default {} >>= load text = .ok m ∧ p m := by
  unfold passesAfter at h
  split at h
  case h_2 => cases h
  case h_1 m hb =>
    split at h
    case h_2 => cases h
    case h_1 v m' he =>
      have ⟨hd, hp⟩ := Bool.and_eq_true_iff.mp h
      rw [Option.isNone_iff_eq_none] at hd
      have ht : evalText text m = .ok v m' := by
        simp only [evalText, Bind.bind, EStateM.bind, he, hd]
        rfl
      refine ⟨m', ?_, hp⟩
      rw [hb]
      show load text m = _
      rw [load, ht]

-- The characters of the prelude are needed as such, to evaluate a test.
theorem exists_new_of {settings : Settings} {cs : List Char} {p : Machine → Bool}
    (hcs : preludeText = String.ofList cs) (h : passesAfter settings cs p) :
    ∃ m, Machine.new settings default {} = .ok m ∧ p m :=
  exists_load_of <| by rwa [hcs, String.toList_ofList]

theorem arises_of_load {settings : Settings} {host : Host} {output : Output} {text : String}
    {m : Machine} (h : Machine.bare settings host output >>= load text = .ok m) : m.Arises := by
  have ⟨b, hb, hl⟩ := exists_of_bind_eq_ok h
  have ha : ((Request.eval text).serve.left b).Arises := .serve <| .bare hb
  rwa [show (Request.eval text).serve = evalText text from rfl, left_of_load hl] at ha

theorem evalData_append {front rest : List (Datum × Nat)} {v : Value} :
    evalData (front ++ rest) v = evalData front v >>= evalData rest := by
  induction front generalizing v
  case nil => rfl
  case cons hi => simp only [List.cons_append, evalData, hi, bind_assoc]

-- `m.Visits text n next m'`: as `m` evaluates a text it comes to be `m'`, about to take a step if
-- there is one left of the `n` that remain.
inductive Visits (m : Machine) (text : String) : Nat → Step → Machine → Prop
  -- The forms in front have been evaluated, and one more has been built.
  | start (front d pos rest) {v m₁ exp m₂} :
    (Reader.walk text.toList).data = front ++ (d, pos) :: rest →
    evalData front .nil m = .ok v m₁ → (liftM (Image.build d) : Run Value) m₁ = .ok exp m₂ →
    Visits m text m₂.settings.maxSteps .eval (m₂.started exp)
  | step {n next m₁ next' m₂} : Visits m text (n + 1) next m₁ → next ≠ .halt →
    advance next m₁ = .ok next' m₂ → Visits m text n next' m₂

theorem collectBefore_of_due {next : Step} {m : Machine} (h : m.image.store.isCollectionDue) :
    m.countStep.collectBefore next = { m.countStep with image := { m.image with
      store := (m.image.store.collect (m.roots next)).2 } } :=
  if_pos h

theorem collectBefore_of_not_due {next : Step} {m : Machine}
    (h : m.image.store.isCollectionDue = false) :
    m.countStep.collectBefore next = m.countStep :=
  if_neg <| Bool.eq_false_iff.mp h

theorem runFor_zero {next : Step} {m : Machine} (h : next ≠ .halt) :
    runFor 0 next m = .error (.stepLimit m.settings.maxSteps) m.countStep := by
  cases next
  case halt => contradiction
  all_goals rfl

theorem runFor_succ_apply {n : Nat} {next : Step} {m : Machine} (h : next ≠ .halt) :
    runFor (n + 1) next m = match advance next m with
      | .ok next m => runFor n next m
      | .error fault m => .error fault m := by
  cases next
  case halt => contradiction
  all_goals rfl

theorem runFor_succ {n : Nat} {next : Step} (h : next ≠ .halt) :
    runFor (n + 1) next = advance next >>= runFor n := by
  funext m
  simp only [runFor_succ_apply h, Bind.bind, EStateM.bind]
  cases advance next m <;> rfl

-- A property of machines between two requests, and one of machines between two steps.
structure Invariant (idle : Machine → Prop) (busy : Step → Machine → Prop) : Prop where
  bare {settings host output m} : bare settings host output = .ok m → idle m
  build (d : Datum) {m} : idle m →
    match (liftM (Image.build d) : Run Value) m with
    | .ok exp m' => busy .eval (m'.started exp)
    | .error _ m' => idle m'
  advance {next m} : busy next m →
    match advance next m with
    | .ok next' m' => busy next' m'
    | .error _ m' => idle m'
  stop {next m} : busy next m → idle m
  countStep {m} : idle m → idle m.countStep
  reject (defect : Defect) {m} : idle m → idle ((liftM (Image.reject defect) : Run Value).left m)
  define (name text : String) {m} : idle m → idle ((Request.define name text).serve.left m)

namespace Invariant

variable {idle : Machine → Prop} {busy : Step → Machine → Prop} {m m' : Machine}
variable (i : Invariant idle busy)
include i

theorem runFor {next : Step} {n : Nat} (h : busy next m) : idle ((runFor n next).left m) := by
  induction n generalizing next m <;> rcases Classical.em (next = .halt) with rfl | hn
  case zero.inl | succ.inl => exact i.stop h
  case zero.inr => exact left_of_error (runFor_zero hn) ▸ i.countStep (i.stop h)
  case succ.inr hi =>
    have ha := i.advance h
    rw [runFor_succ hn]
    cases hr : Machine.advance next m <;> simp only [hr] at ha
    case ok => exact left_bind_of_ok hr ▸ hi ha
    case error => exact left_bind_of_error hr ▸ ha

theorem evalData {data : List (Datum × Nat)} {v : Value} (h : idle m) :
    idle ((evalData data v).left m) := by
  induction data generalizing v m
  case nil => exact h
  case cons form rest hi =>
    obtain ⟨d, pos⟩ := form
    have hb := i.build d h
    simp only [Machine.evalData]
    cases hr : (liftM (Image.build d) : Run Value) m <;> simp only [hr] at hb
    case error => exact left_bind_of_error hr ▸ hb
    case ok exp m₁ =>
      rw [left_bind_of_ok hr]
      have he := i.runFor (n := m₁.settings.maxSteps) hb
      cases hr : executeGlobal exp m₁
      case ok => exact left_bind_of_ok hr ▸ hi (left_of_ok hr ▸ he)
      case error => exact left_bind_of_error hr ▸ left_of_error hr ▸ he

theorem evalText {text : String} (h : idle m) : idle ((evalText text).left m) := by
  have hd : idle ((Machine.evalData (Reader.walk text.toList).data .nil).left m) := i.evalData h
  simp only [Machine.evalText]
  cases hr : Machine.evalData (Reader.walk text.toList).data .nil m
  case error => exact left_bind_of_error hr ▸ left_of_error hr ▸ hd
  case ok =>
    rw [left_of_ok hr] at hd
    rw [left_bind_of_ok hr]
    split
    case h_1 => exact hd
    case h_2 => exact i.reject _ hd

theorem idle_of_arises (h : m.Arises) : idle m := by
  induction h
  case bare h => exact i.bare h
  case new settings host output m h =>
    have ⟨m₀, hb, hl⟩ := exists_of_bind_eq_ok h
    exact left_of_load hl ▸ i.evalText (i.bare hb)
  case serve request m _ hi =>
    cases request
    case eval => exact i.evalText hi
    case define => exact i.define _ _ hi

theorem busy_of_visits {text : String} {n : Nat} {next : Step} (h : idle m)
    (hv : m.Visits text n next m') : busy next m' := by
  induction hv
  case start front d _ _ v m₁ exp m₂ _ he hb =>
    have h₁ := i.build d (left_of_ok he ▸ i.evalData h)
    simpa only [hb] using h₁
  case step ha hi =>
    simpa only [ha] using i.advance hi

end Invariant
end Machine
end StepLisp
