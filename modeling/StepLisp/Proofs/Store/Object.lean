import StepLisp.Store.Trace

namespace StepLisp

inductive Object
  | cell (c : Cell)
  | string (text : String)
  | frame (f : Frame)
  | closure (c : Closure)
  | continuation (k : Continuation)
  | foreign (f : Foreign)

namespace Object

def kind : Object → Kind
  | cell _ => .pair
  | string _ => .string
  | frame _ => .frame
  | closure _ => .closure
  | continuation _ => .continuation
  | foreign _ => .foreign

def refs : Object → List Ref
  | cell c => c.refs
  | frame f => f.refs
  | closure c => c.refs
  | continuation k => k.refs
  | string _ | foreign _ => []

end Object

namespace Store

variable {s : Store} {r : Ref}

-- What a place holds, be it in use or not.
def content? (s : Store) (r : Ref) : Option Object :=
  match r.kind with
  | .pair => s.cells[r.index]?.map .cell
  | .string => (s.strings.get? r.index).map .string
  | .frame => (s.frames.get? r.index).map .frame
  | .closure => (s.closures.get? r.index).map .closure
  | .continuation => (s.continuations.get? r.index).map .continuation
  | .foreign => (s.foreigns.get? r.index).map .foreign

def IsFree (s : Store) (r : Ref) : Prop :=
  r.kind = .pair ∧ (⟨r.index⟩ : PairId) ∈ s.freeCells

instance : Decidable (s.IsFree r) :=
  inferInstanceAs (Decidable (_ ∧ _))

-- The object that a reference stands for.
def object? (s : Store) (r : Ref) : Option Object :=
  if s.IsFree r then none else s.content? r

-- There is an object, and it is not waiting to be given out again.
def Live (s : Store) (r : Ref) : Prop :=
  (s.object? r).isSome

theorem refs_eq_content : s.refs r = (s.content? r).elim [] Object.refs := by
  obtain ⟨kind, i⟩ := r
  cases kind <;> simp only [refs, content?]
  case pair => cases s.cells[i]? <;> rfl
  case string => cases s.strings.get? i <;> rfl
  case frame => cases s.frames.get? i <;> rfl
  case closure => cases s.closures.get? i <;> rfl
  case continuation => cases s.continuations.get? i <;> rfl
  case foreign => cases s.foreigns.get? i <;> rfl

theorem object?_eq_content (h : ¬s.IsFree r) : s.object? r = s.content? r :=
  if_neg h

theorem object?_eq_some_iff {o : Object} :
    s.object? r = some o ↔ ¬s.IsFree r ∧ s.content? r = some o := by
  by_cases h : s.IsFree r <;> simp [object?, h]

theorem kind_of_object? {o : Object} (h : s.object? r = some o) : o.kind = r.kind := by
  have hc := (object?_eq_some_iff.mp h).right
  obtain ⟨kind, i⟩ := r
  cases kind <;> obtain ⟨_, _, rfl⟩ := Option.map_eq_some_iff.mp hc <;> rfl

theorem Live.not_isFree (h : s.Live r) : ¬s.IsFree r := by
  intro hf
  simp [Live, object?, hf] at h

theorem live_iff_exists : s.Live r ↔ ∃ o, s.object? r = some o :=
  Option.isSome_iff_exists

end Store
end StepLisp
