import Mathlib.Logic.Function.Iterate
import Mathlib.Logic.Relation
import StepLisp.Proofs.Session

namespace StepLisp

-- Where a session stands. What is left of a text are the forms that have not been read.
inductive Stage
  -- Between two requests.
  | idle (m : Machine)
  -- Between two forms.
  | reading (rest : Reader.Contents (Datum × Nat)) (m : Machine)
  -- Between two steps, with so many of them to go.
  | running (rest : Reader.Contents (Datum × Nat)) (n : Nat) (next : Step) (m : Machine)

namespace Stage

def machine : Stage → Machine
  | idle m | reading _ m | running _ _ _ m => m

-- A property of machines between two forms, and one of machines between two steps.
def Holds (idle : Machine → Prop) (busy : Step → Machine → Prop) : Stage → Prop
  | .idle m | .reading _ m => idle m
  | .running _ _ next m => busy next m

end Stage

open Act Machine Relation

inductive Moves : Stage → Stage → Prop
  | request (text : String) {m} : Moves (.idle m) (.reading (Reader.walk text.toList) m)
  | define (name text : String) {m} :
    Moves (.idle m) (.idle ((Request.define name text).serve.left m))
  | start {d pos rest defect m exp m'} : (liftM (Image.build d) : Run Value) m = .ok exp m' →
    Moves (.reading ⟨(d, pos) :: rest, defect⟩ m)
      (.running ⟨rest, defect⟩ m'.settings.maxSteps .eval (m'.started exp))
  | unbuilt {d pos rest defect m fault m'} :
    (liftM (Image.build d) : Run Value) m = .error fault m' →
    Moves (.reading ⟨(d, pos) :: rest, defect⟩ m) (.idle m')
  | finish {m} : Moves (.reading ⟨[], none⟩ m) (.idle m)
  | reject {defect m} : Moves (.reading ⟨[], some defect⟩ m)
    (.idle ((liftM (Image.reject defect) : Run Value).left m))
  | step {rest n next m next' m'} : next ≠ .halt → advance next m = .ok next' m' →
    Moves (.running rest (n + 1) next m) (.running rest n next' m')
  | fault {rest n next m fault m'} : next ≠ .halt → advance next m = .error fault m' →
    Moves (.running rest (n + 1) next m) (.idle m')
  | halt {rest n m} : Moves (.running rest n .halt m) (.reading rest m)
  | limit {rest next m} : next ≠ .halt → Moves (.running rest 0 next m) (.idle m.countStep)

abbrev Course := ReflTransGen Moves

-- The stages of all sessions. The prelude is the first text that a machine is asked to evaluate.
def Reached (t : Stage) : Prop :=
  ∃ settings host output m, bare settings host output = .ok m ∧ Course (.idle m) t

section Invariants

variable {idle : Machine → Prop} {busy : Step → Machine → Prop} {t t' : Stage}

theorem Machine.Invariant.moves (i : Invariant idle busy) (h : Moves t t')
    (ht : t.Holds idle busy) : t'.Holds idle busy := by
  cases h
  case request | finish => exact ht
  case define => exact i.define _ _ ht
  case start d _ _ _ _ _ _ hb | unbuilt d _ _ _ _ _ _ hb =>
    have h := i.build d ht
    rwa [hb] at h
  case reject => exact i.reject _ ht
  case step ha | fault ha =>
    have h := i.advance ht
    rwa [ha] at h
  case halt => exact i.stop ht
  case limit => exact i.countStep <| i.stop ht

theorem Machine.Invariant.holds (i : Invariant idle busy) (h : Reached t) : t.Holds idle busy := by
  obtain ⟨_, _, _, m, hb, hc⟩ := h
  induction hc
  case refl => exact i.bare hb
  case tail hm hi => exact i.moves hm hi

end Invariants

theorem Reached.course {t t' : Stage} (h : Reached t) (hc : Course t t') : Reached t' := by
  obtain ⟨settings, host, output, m, hb, h⟩ := h
  exact ⟨settings, host, output, m, hb, h.trans hc⟩

-- Within a text there is one move to make.
def Stage.next : Stage → Stage
  | .idle m => .idle m
  | .reading ⟨(d, _) :: rest, defect⟩ m =>
    match (liftM (Image.build d) : Run Value) m with
    | .ok exp m' => .running ⟨rest, defect⟩ m'.settings.maxSteps .eval (m'.started exp)
    | .error _ m' => .idle m'
  | .reading ⟨[], none⟩ m => .idle m
  | .reading ⟨[], some defect⟩ m => .idle ((liftM (Image.reject defect) : Run Value).left m)
  | .running rest _ .halt m => .reading rest m
  | .running _ 0 _ m => .idle m.countStep
  | .running rest (n + 1) k m =>
    match advance k m with
    | .ok k' m' => .running rest n k' m'
    | .error _ m' => .idle m'

-- What a stage leads to within its text.
def Stage.Leads (t t' : Stage) : Prop :=
  ∃ j, Stage.next^[j] t = t'

namespace Stage

variable {t t' t'' : Stage}

theorem course_next (t : Stage) : Course t t.next := by
  fun_cases Stage.next t
  case case1 => exact .refl
  case case2 h => exact .single <| .start h
  case case3 h => exact .single <| .unbuilt h
  case case4 => exact .single .finish
  case case5 => exact .single .reject
  case case6 => exact .single .halt
  case case7 h => exact .single <| .limit h
  case case8 hn _ _ h => exact .single <| .step hn h
  case case9 hn _ _ h => exact .single <| .fault hn h

theorem next_of_ok {rest : Reader.Contents (Datum × Nat)} {n : Nat} {k k' : Step} {m m' : Machine}
    (hk : k ≠ .halt) (h : advance k m = .ok k' m') :
    (running rest (n + 1) k m).next = running rest n k' m' := by
  rw [Stage.next, h]
  exact hk

namespace Leads

theorem refl : t.Leads t :=
  ⟨0, rfl⟩

theorem head (h : t.next.Leads t') : t.Leads t' := by
  obtain ⟨j, hj⟩ := h
  exact ⟨j + 1, hj⟩

theorem tail (h : t.Leads t') : t.Leads t'.next := by
  obtain ⟨j, rfl⟩ := h
  exact ⟨j + 1, Function.iterate_succ_apply' ..⟩

theorem trans (h : t.Leads t') (h' : t'.Leads t'') : t.Leads t'' := by
  obtain ⟨j, rfl⟩ := h'
  induction j
  case zero => exact h
  case succ hi =>
    rw [Function.iterate_succ_apply']
    exact hi.tail

theorem course (h : t.Leads t') : Course t t' := by
  obtain ⟨j, rfl⟩ := h
  induction j generalizing t
  case zero => exact .refl
  case succ hi => exact t.course_next.trans hi

end Leads
end Stage

theorem Reached.next {t : Stage} (h : Reached t) : Reached t.next :=
  h.course t.course_next

theorem Reached.iterate {t : Stage} (h : Reached t) (n : Nat) : Reached (Stage.next^[n] t) :=
  h.course <| Stage.Leads.course ⟨n, rfl⟩

-- Sessions are courses

variable {m m' : Machine} {rest : Reader.Contents (Datum × Nat)} {n : Nat} {next : Step} {v : Value}

theorem leads_of_runFor (h : runFor n next m = .ok v m') :
    (Stage.running rest n next m).Leads (.reading rest m') := by
  induction n generalizing next m <;> rcases Classical.em (next = .halt) with rfl | hn
  case zero.inl | succ.inl =>
    cases h
    exact .head .refl
  case zero.inr =>
    rw [runFor_zero hn] at h
    cases h
  case succ.inr hi =>
    simp only [runFor_succ hn, Bind.bind, EStateM.bind] at h
    cases hr : advance next m <;> simp only [hr] at h
    case ok => exact .head <| Stage.next_of_ok hn hr ▸ hi h
    case error => cases h

theorem course_of_runFor_error {fault : Fault} (h : runFor n next m = .error fault m') :
    Course (.running rest n next m) (.idle m') := by
  induction n generalizing next m <;> rcases Classical.em (next = .halt) with rfl | hn
  case zero.inl | succ.inl => cases h
  case zero.inr =>
    rw [runFor_zero hn] at h
    cases h
    exact .single <| .limit hn
  case succ.inr hi =>
    simp only [runFor_succ hn, Bind.bind, EStateM.bind] at h
    cases hr : advance next m <;> simp only [hr] at h
    case ok => exact .head (.step hn hr) <| hi h
    case error =>
      cases h
      exact .single <| .fault hn hr

theorem leads_of_evalData {front : List (Datum × Nat)} {u : Value}
    (h : evalData front u m = .ok v m') (rest : List (Datum × Nat)) (defect : Option Defect) :
    (Stage.reading ⟨front ++ rest, defect⟩ m).Leads (.reading ⟨rest, defect⟩ m') := by
  induction front generalizing u m
  case nil =>
    cases h
    exact .refl
  case cons form front hi =>
    obtain ⟨d, pos⟩ := form
    simp only [evalData, Bind.bind, EStateM.bind] at h
    cases hb : (liftM (Image.build d) : Run Value) m <;> simp only [hb] at h
    case error => cases h
    case ok exp m₁ =>
      cases hx : executeGlobal exp m₁ <;> simp only [hx] at h
      case error => cases h
      case ok =>
        refine .head ?_
        rw [List.cons_append, Stage.next, hb]
        exact (leads_of_runFor hx).trans (hi h)

theorem course_of_evalData_error {data : List (Datum × Nat)} {defect : Option Defect} {u : Value}
    {fault : Fault} (h : evalData data u m = .error fault m') :
    Course (.reading ⟨data, defect⟩ m) (.idle m') := by
  induction data generalizing u m
  case nil => cases h
  case cons form data hi =>
    obtain ⟨d, pos⟩ := form
    simp only [evalData, Bind.bind, EStateM.bind] at h
    cases hb : (liftM (Image.build d) : Run Value) m <;> simp only [hb] at h
    case error =>
      cases h
      exact .single <| .unbuilt hb
    case ok exp m₁ =>
      refine .head (.start hb) ?_
      cases hx : executeGlobal exp m₁ <;> simp only [hx] at h
      case error =>
        cases h
        exact course_of_runFor_error hx
      case ok => exact (leads_of_runFor hx).course.trans <| hi h

theorem course_evalText (text : String) : Course (.idle m) (.idle ((evalText text).left m)) := by
  refine .head (.request text) ?_
  rcases hw : Reader.walk text.toList with ⟨data, defect⟩
  simp only [evalText, hw]
  cases hr : evalData data .nil m
  case error =>
    rw [left_bind_of_error hr]
    exact course_of_evalData_error hr
  case ok m' =>
    rw [left_bind_of_ok hr]
    have hc := (leads_of_evalData hr [] defect).course
    rw [List.append_nil] at hc
    refine .tail hc ?_
    cases defect
    case none => exact .finish
    case some => exact .reject

theorem course_serve (request : Request) : Course (.idle m) (.idle (request.serve.left m)) := by
  cases request
  case eval text => exact course_evalText text
  case define => exact .single <| .define _ _

theorem reached_of_arises (h : m.Arises) : Reached (.idle m) := by
  induction h
  case bare h => exact ⟨_, _, _, _, h, .refl⟩
  case new h =>
    have ⟨m₀, hb, hl⟩ := exists_of_bind_eq_ok h
    exact ⟨_, _, _, m₀, hb, left_of_load hl ▸ course_evalText _⟩
  case serve hi => exact hi.course <| course_serve _

theorem reached_request (h : m.Arises) (text : String) :
    Reached (.reading (Reader.walk text.toList) m) :=
  (reached_of_arises h).course <| .single <| .request text

-- What is visited is what the stages of a text pass through

-- The forms in front of the rest have been evaluated.
def Machine.Completes (m : Machine) (text : String) (rest : Reader.Contents (Datum × Nat))
    (m' : Machine) : Prop :=
  ∃ front v, (Reader.walk text.toList).data = front ++ rest.data ∧ evalData front .nil m = .ok v m'

def Stage.Within (m : Machine) (text : String) : Stage → Prop
  | .idle _ => True
  | .reading rest m' => m.Completes text rest m'
  | .running rest n k m' => m.Visits text n k m' ∧
    ∀ v m'', runFor n k m' = .ok v m'' → m.Completes text rest m''

theorem Stage.within_next {t : Stage} {text : String} (h : t.Within m text) :
    t.next.Within m text := by
  fun_cases Stage.next t
  case case1 | case3 | case4 | case5 | case7 | case9 => trivial
  case case2 d pos rest defect m₁ exp m₂ hb =>
    obtain ⟨front, v, hd, he⟩ := h
    refine ⟨.start front d pos rest hd he hb, fun w m₃ hr => ⟨front ++ [(d, pos)], w, ?_, ?_⟩⟩
    · rw [hd, List.append_assoc]
      rfl
    · have hx : evalData [(d, pos)] v m₁ = .ok w m₃ := by
        simp only [evalData, bind_pure]
        rw [bind_of_ok hb]
        exact hr
      rw [evalData_append, bind_of_ok he, hx]
  case case6 n m₁ => exact h.right m₁.control.val m₁ (by cases n <;> rfl)
  case case8 hn _ _ ha =>
    refine ⟨h.left.step hn ha, fun w m₃ hr => h.right w m₃ ?_⟩
    rw [runFor_succ hn, bind_of_ok ha, hr]

theorem visits_iff_leads {text : String} : m.Visits text n next m' ↔
    ∃ rest, (Stage.reading (Reader.walk text.toList) m).Leads (.running rest n next m') := by
  constructor
  case mp =>
    intro h
    induction h
    case start front d pos rest v m₁ exp m₂ hd he hb =>
      refine ⟨⟨rest, (Reader.walk text.toList).defect⟩, ?_⟩
      have hw : Reader.walk text.toList =
          ⟨front ++ (d, pos) :: rest, (Reader.walk text.toList).defect⟩ := by rw [← hd]
      have hl := (leads_of_evalData he ((d, pos) :: rest) (Reader.walk text.toList).defect).tail
      rwa [← hw, Stage.next, hb] at hl
    case step hn ha hi =>
      obtain ⟨rest, hl⟩ := hi
      exact ⟨rest, Stage.next_of_ok hn ha ▸ hl.tail⟩
  case mpr =>
    rintro ⟨rest, j, hj⟩
    have hw (j : Nat) : (Stage.next^[j] (.reading (Reader.walk text.toList) m)).Within m text := by
      induction j
      case zero => exact ⟨[], .nil, rfl, rfl⟩
      case succ hi =>
        rw [Function.iterate_succ_apply']
        exact Stage.within_next hi
    exact (hj ▸ hw j).left

end StepLisp
