import StepLisp.Proofs.Renaming.Run
import StepLisp.Proofs.Store.Spine

namespace StepLisp

-- What can be seen of how a request was served.
structure Answer where
  -- The value as it is written and as it is displayed.
  outcome : Except Fault (String × String)
  output : Output
  steps : Nat

namespace Machine

open Act

variable {ρ : Renaming} {k : Step} {m m' : Machine} {request : Request} {requests : List Request}
variable {text : String} {n : Nat}

def answer (m : Machine) (request : Request) : Answer :=
  match request.serve m with
  | .ok v m => ⟨.ok (m.image.write v, m.image.display v), m.output, m.steps⟩
  | .error fault m => ⟨.error fault, m.output, m.steps⟩

-- Requests are served one after the other, also if some of them fail.
def answers (m : Machine) : List Request → List Answer
  | [] => []
  | request :: rest => m.answer request :: (request.serve.left m).answers rest

-- The request neither runs out of cells nor is given a list of parameters without end.
structure Moderate (m : Machine) (request : Request) : Prop where
  fits (cells : Nat) (left : Machine) : request.serve m ≠ .error (.heapExhausted cells) left
  calm (source : String) : request = .eval source → m.Calm source

def ModerateAll (m : Machine) : List Request → Prop
  | [] => True
  | request :: rest => m.Moderate request ∧ (request.serve.left m).ModerateAll rest

theorem serve_agree (ha : m.Arises) (h : m.Moderate request) (h' : m'.Moderate request)
    (hm : m.Idle False ρ m') :
    Agree (idleLikeness False) .empty Value.Alike (request.serve m) (request.serve m') := by
  cases request
  case eval text => exact evalText_agree ha (.inr ⟨h.calm text rfl, h'.calm text rfl⟩) hm
  case define => exact (define_agree hm).imp Renaming.empty_le fun _ _ _ _ => id

theorem answer_eq (ha : m.Arises) (h : m.Moderate request) (h' : m'.Moderate request)
    (hm : m.Idle False ρ m') : m.answer request = m'.answer request ∧
      ∃ τ, (request.serve.left m).Idle False τ (request.serve.left m') := by
  have hs := serve_agree ha h h' hm
  have hn := h.fits
  have hn' := h'.fits
  simp only [answer, left]
  generalize request.serve m = r, request.serve m' = r' at hs hn hn'
  cases hs
  case ok τ v v' m m' _ hm hv =>
    have hm : m.Idle False τ m' := hm
    refine ⟨?_, τ, hm⟩
    simp only [Image.write, Image.display, hm.image.print hv, hm.output, hm.steps]
  case fault τ fault fault' m m' _ hf hm =>
    have hm : m.Idle False τ m' := hm
    cases hf.eq False.elim
    refine ⟨?_, τ, hm⟩
    simp only [hm.output, hm.steps]
  case fatal τ fault m m' _ hm =>
    have hm : m.Idle False τ m' := hm
    refine ⟨?_, τ, hm⟩
    simp only [hm.output, hm.steps]
  case exhausted => exact absurd rfl <| hn _ _
  case exhausted' => exact absurd rfl <| hn' _ _

theorem answers_eq (ha : m.Arises) (h : m.ModerateAll requests) (h' : m'.ModerateAll requests)
    (hm : m.Idle False ρ m') : m.answers requests = m'.answers requests := by
  induction requests generalizing m m' ρ
  case nil => rfl
  case cons request rest hi =>
    have ⟨he, τ, hm⟩ := answer_eq ha h.left h'.left hm
    rw [answers, answers, he, hi ha.serve h.right h'.right hm]

-- A machine that has evaluated a library. For the machines of `new` that is the prelude.
def equipped (library : String) (settings : Settings) (host : Host) (output : Output) :
    Except Fault Machine :=
  bare settings host output >>= load library

theorem new_eq_equipped {settings : Settings} {host : Host} {output : Output} :
    new settings host output = equipped preludeText settings host output :=
  rfl

theorem collection_unobservable {library : String} {settings : Settings} {threshold : Nat}
    {host : Host} {output : Output} {m m' : Machine} {requests : List Request}
    (hm : equipped library settings host output = .ok m)
    (hm' : equipped library { settings with gcThreshold := threshold } host output = .ok m')
    (hl : ∀ b, bare settings host output = .ok b → b.Moderate (.eval library))
    (hl' : ∀ b, bare { settings with gcThreshold := threshold } host output = .ok b →
      b.Moderate (.eval library))
    (h : m.ModerateAll requests) (h' : m'.ModerateAll requests) :
    m.answers requests = m'.answers requests := by
  have ⟨b, hb, hload⟩ := exists_of_bind_eq_ok hm
  have ⟨b', hb', hload'⟩ := exists_of_bind_eq_ok hm'
  have ⟨ρ, hi⟩ := idle_of_bare hb hb' False.elim
  have ⟨_, τ, hi⟩ := answer_eq (.bare hb) (hl b hb) (hl' b' hb') hi
  rw [show (Request.eval library).serve = evalText library from rfl, left_of_load hload,
    left_of_load hload'] at hi
  exact answers_eq (arises_of_load hm) h h' hi

-- Whether a text is moderate can be found out by evaluating it.

section Calmness

variable {α σ : Type} {fuel : Nat} {t : Stage} {rest : Reader.Contents (Datum × Nat)}

def isExhausted : EStateM.Result Fault σ α → Bool
  | .error (.heapExhausted _) _ => true
  | _ => false

def isCalm (k : Step) (m : Machine) : Bool :=
  let m := m.countStep.collectBefore k
  !isExhausted (step k m) && (m.template? k).all fun v => (m.image.store.toList? v).isSome

-- The text ends within so many moves, and each step until then is calm.
def staysCalm : Nat → Stage → Bool
  | _, .idle _ => true
  | 0, _ => false
  | fuel + 1, .reading rest m => staysCalm fuel (Stage.reading rest m).next
  | fuel + 1, .running rest n k m => isCalm k m && staysCalm fuel (Stage.running rest n k m).next

def isModerate (text : String) (m : Machine) : Bool :=
  !isExhausted (evalText text m) && staysCalm 100 (.reading (Reader.walk text.toList) m)

theorem not_exhausts_of_isCalm (h : isCalm k m) : ¬Exhausts k m := by
  rintro ⟨cells, m', hs⟩
  simp [isCalm, hs, isExhausted] at h

theorem givenEnds_of_isCalm (h : isCalm k m) : GivenEnds k m := by
  intro v hv
  by_contra he
  simp [isCalm, hv, Store.toList?_of_not_ends he] at h

theorem staysCalm_next (h : staysCalm fuel t) : ∃ fuel, staysCalm fuel t.next := by
  fun_cases staysCalm fuel t
  case case1 => exact ⟨0, rfl⟩
  case case2 => simp [staysCalm] at h
  case case3 => exact ⟨_, h⟩
  case case4 => exact ⟨_, (Bool.and_eq_true_iff.mp h).right⟩

theorem isCalm_of_leads (h : staysCalm fuel t) (hl : t.Leads (.running rest n k m)) :
    isCalm k m := by
  obtain ⟨j, hj⟩ := hl
  induction j generalizing t fuel
  case zero =>
    cases hj
    cases fuel
    case zero => cases h
    case succ => exact (Bool.and_eq_true_iff.mp h).left
  case succ hi =>
    have ⟨_, h⟩ := staysCalm_next h
    exact hi h hj

theorem moderate_of_isModerate (h : isModerate text m) : m.Moderate (.eval text) := by
  have ⟨hx, hc⟩ := Bool.and_eq_true_iff.mp h
  constructor
  case fits =>
    intro cells left hs
    have he : evalText text m = .error (.heapExhausted cells) left := hs
    simp [he, isExhausted] at hx
  case calm =>
    rintro _ ⟨⟩ n k m' hv -
    have ⟨_, hl⟩ := visits_iff_leads.mp hv
    have hk := isCalm_of_leads hc hl
    exact ⟨not_exhausts_of_isCalm hk, givenEnds_of_isCalm hk⟩

end Calmness

-- Procedures call one another, and one of the machines collects meanwhile.
def procedures : String :=
  "(define (double x) (cons x x)) (define (twice f x) (f (f x)))"

def calls : String :=
  "(twice double 1)"

def callsModerately (collected : Bool) (b : Machine) : Bool :=
  isModerate procedures b &&
    match load procedures b with
    | .ok m => isModerate calls m &&
      ((evalText calls).left m).image.store.freeCells.isEmpty != collected
    | .error _ => false

theorem exists_equipped_of (settings : Settings) (collected : Bool)
    (h : (bare settings default {}).toOption.any (callsModerately collected)) :
    ∃ m, equipped procedures settings default {} = .ok m ∧
      (∀ b, bare settings default {} = .ok b → b.Moderate (.eval procedures)) ∧
      m.ModerateAll [.eval calls] ∧
      ((evalText calls).left m).image.store.freeCells.isEmpty = !collected := by
  obtain ⟨b, hb, h⟩ := exists_bare_of settings default {} _ h
  have ⟨hp, h⟩ := Bool.and_eq_true_iff.mp h
  split at h
  case h_2 => cases h
  case h_1 m hl =>
    have ⟨hc, hf⟩ := Bool.and_eq_true_iff.mp h
    refine ⟨m, ?_, fun b' hb' => ?_, ⟨moderate_of_isModerate hc, trivial⟩, ?_⟩
    · simp only [equipped, hb, Bind.bind, Except.bind, hl]
    · rw [← Except.ok.inj (hb.symm.trans hb')]
      exact moderate_of_isModerate hp
    · simpa [Bool.eq_not] using hf

theorem collection_unobservable_calls : ∃ m m' : Machine,
    equipped procedures {} default {} = .ok m ∧
    equipped procedures { gcThreshold := 32 } default {} = .ok m' ∧
    m.ModerateAll [.eval calls] ∧ m'.ModerateAll [.eval calls] ∧
    ((evalText calls).left m).image.store.freeCells = [] ∧
    ((evalText calls).left m').image.store.freeCells ≠ [] ∧
    m.answers [.eval calls] = m'.answers [.eval calls] := by
  obtain ⟨m, hm, hl, h, hf⟩ := exists_equipped_of {} false (by decide +kernel)
  obtain ⟨m', hm', hl', h', hf'⟩ :=
    exists_equipped_of { gcThreshold := 32 } true (by decide +kernel)
  refine ⟨m, m', hm, hm', h, h', by simpa using hf, by simpa using hf', ?_⟩
  exact collection_unobservable hm hm' hl hl' h h'

end Machine
end StepLisp
