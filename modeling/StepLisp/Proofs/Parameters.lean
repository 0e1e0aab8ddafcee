import StepLisp.Proofs.Sequence
import StepLisp.Proofs.Shadowing
import StepLisp.Proofs.Store.Spine

namespace StepLisp

namespace Frame

-- Bindings made one after the other.
def defineAll (f : Frame) (bindings : List (Symbol × Value)) : Frame :=
  bindings.foldl (fun f b => f.define b.1 b.2) f

variable {f : Frame} {bindings : List (Symbol × Value)} {x : Symbol}

theorem parent_defineAll : (f.defineAll bindings).parent = f.parent := by
  induction bindings generalizing f
  case nil => rfl
  case cons hi => exact hi

-- Of several bindings of a name the last one counts.
theorem get?_defineAll :
    (f.defineAll bindings).get? x = (bindings.reverse.lookup x).or (f.get? x) := by
  induction bindings generalizing f
  case nil => rfl
  case cons b rest hi =>
    rw [defineAll, List.foldl_cons]
    refine hi.trans ?_
    rw [get?_define, List.reverse_cons, List.lookup_append]
    have hb : [(b.1, b.2)].lookup x = if x = b.1 then some b.2 else none := lookup_cons
    rw [hb]
    cases rest.reverse.lookup x
    case some => rfl
    case none => split <;> rfl

end Frame

theorem Slab.modify_eq {α : Type} {s : Slab α} {i : Nat} {a : α} {f : α → α}
    (h : s.get? i = some a) : s.modify i f = s.modify i fun _ => f a := by
  have he : s.entries.modify i (Option.map f) = s.entries.modify i (Option.map fun _ => f a) := by
    refine Array.ext_getElem? fun j => ?_
    rw [Array.getElem?_modify, Array.getElem?_modify]
    split
    case isFalse => rfl
    case isTrue hj =>
      subst hj
      have h : s.entries[i]?.join = some a := h
      cases hs : s.entries[i]? <;> rw [hs] at h
      case none => rfl
      case some =>
        cases h
        rfl
  rw [modify, modify, he]

namespace Store

variable {s : Store} {e e' : FrameId} {f g : Frame} {x : Symbol} {v : Value} {id : PairId}

-- Frames

def setFrame (s : Store) (e : FrameId) (f : Frame) : Store :=
  { s with frames := s.frames.modify e.index fun _ => f }

theorem setFrame_self (h : s.frame e = .ok f) : s.setFrame e f = s := by
  have hf : s.frames.get? e.index = some f := present_eq_ok_iff.mp h
  have hm : (s.frames.modify e.index fun _ => f) = s.frames.modify e.index id :=
    (Slab.modify_eq (f := id) hf).symm
  rw [setFrame, hm, Slab.modify]
  congr
  refine Array.ext_getElem? fun j => ?_
  rw [Array.getElem?_modify]
  split <;> simp

theorem frame_setFrame (h : s.frame e = .ok f) :
    (s.setFrame e g).frame e' = if e' = e then .ok g else s.frame e' := by
  have hf : s.frames.get? e.index = some f := present_eq_ok_iff.mp h
  obtain ⟨i⟩ := e
  obtain ⟨j⟩ := e'
  simp only [frame, setFrame, Slab.get?_modify, Handle.mk.injEq]
  by_cases hj : j = i
  case neg => simp [hj]
  case pos => simp [hj, hf, present]

theorem setFrame_setFrame : (s.setFrame e f).setFrame e g = s.setFrame e g := by
  simp only [setFrame, Slab.modify]
  congr 2
  refine Array.ext_getElem? fun j => ?_
  simp only [Array.getElem?_modify]
  split
  case isFalse => rfl
  case isTrue => cases s.frames.entries[j]? <;> simp [Function.comp_def]

theorem define_eq_setFrame (h : s.frame e = .ok f) :
    define e x v s = .ok () (s.setFrame e (f.define x v)) := by
  rw [define, h, setFrame, Slab.modify_eq (f := (·.define x v)) (present_eq_ok_iff.mp h)]

-- Parameters

-- Names from pair to pair, with nothing or with a name at the end.
inductive Named (s : Store) : Value → Prop
  | nil : Named s .nil
  | symbol {x : Symbol} : Named s (.symbol x)
  | pair {id : PairId} {x : Symbol} : s.car id = .symbol x → Named s (s.cdr id) →
    Named s (.pair id)

theorem lt_totalCells_of_car (h : s.car id = .symbol x) : id.index < s.totalCells := by
  by_contra hc
  rw [car, Array.getD_eq_getD_getElem?, Array.getElem?_eq_none (Nat.not_lt.mp hc)] at h
  cases h

end Store

-- What follows the names that have to be matched: nothing, a name for the arguments that are left,
-- or whatever stands after a mark.
inductive Remainder
  | none
  | tail (name : Symbol)
  | marked (rest : Value)

namespace Remainder

-- How many more pairs are looked at.
def pairs : Remainder → Nat
  | marked _ => 1
  | none | tail _ => 0

-- The name for the arguments that are left. After a mark there must be one and nothing else.
def name? (s : Store) : Remainder → Option Symbol
  | none => .none
  | tail x => x
  | marked rest =>
    match s.uncons? rest with
    | some (.symbol x, .nil) => x
    | _ => .none

-- Whether these may be left of the arguments.
def Admits (r : Remainder) (s : Store) (args : Value) : Prop :=
  r = none ∧ args = .nil ∨ (r.name? s).isSome

end Remainder

namespace Store

variable {s : Store} {v : Value} {names : List Symbol} {r : Remainder}

-- `s.Params v names r`: the parameters `v` are these names and what follows them.
inductive Params (s : Store) : Value → List Symbol → Remainder → Prop
  | nil : Params s .nil [] .none
  | tail {x : Symbol} : Params s (.symbol x) [] (.tail x)
  | marked {id : PairId} : s.car id = .symbol .ampersand →
    Params s (.pair id) [] (.marked (s.cdr id))
  | name {id : PairId} {x : Symbol} {names : List Symbol} {r : Remainder} :
    s.car id = .symbol x → x ≠ .ampersand → Params s (s.cdr id) names r →
    Params s (.pair id) (x :: names) r

theorem Named.exists_params (h : s.Named v) : ∃ names r, s.Params v names r := by
  induction h
  case nil => exact ⟨_, _, .nil⟩
  case symbol => exact ⟨_, _, .tail⟩
  case pair x hc _ hi =>
    by_cases hx : x = .ampersand
    case pos => exact ⟨_, _, .marked (hx ▸ hc)⟩
    case neg =>
      have ⟨_, _, hp⟩ := hi
      exact ⟨_, _, .name hc hx hp⟩

theorem Params.unique {names' : List Symbol} {r' : Remainder} (h : s.Params v names r)
    (h' : s.Params v names' r') : names = names' ∧ r = r' := by
  induction h generalizing names'
  case nil | tail =>
    cases h'
    exact ⟨rfl, rfl⟩
  case marked hc =>
    cases h'
    case marked => exact ⟨rfl, rfl⟩
    case name hx hc' _ => exact absurd (Value.symbol.inj <| hc'.symm.trans hc) hx
  case name hc hx _ hi =>
    cases h'
    case marked hc' => exact absurd (Value.symbol.inj <| hc.symm.trans hc') hx
    case name _ hc' hp' =>
      have ⟨hn, hr⟩ := hi hp'
      exact ⟨congrArg₂ _ (Value.symbol.inj <| hc.symm.trans hc') hn, hr⟩

theorem Params.stops (h : s.Params v names r) :
    s.Stops s.NoParamAt (names.length + r.pairs) v := by
  induction h
  case nil => exact .atom rfl
  case tail => exact .atom rfl
  case marked hc =>
    refine .last fun x hx => ?_
    cases hc.symm.trans hx
    rfl
  case name id x names r hc hx _ hi =>
    rw [List.length_cons, Nat.add_right_comm]
    exact .pair (fun hn => hx (hn x hc)) hi

theorem Named.pairs_le (h : s.Named v) (hp : s.Params v names r) :
    names.length + r.pairs ≤ s.totalCells := by
  refine hp.stops.le (P := s.Named) (fun i hi => ?_) h
  cases hi
  case pair hc hn => exact ⟨lt_totalCells_of_car hc, hn⟩

-- Parameters that nobody has changed are what they were.
theorem Named.of_spine {s' : Store} (h : s.Named v) (hu : ∀ ids id, s.Spine v ids (.pair id) →
    s'.car id = s.car id ∧ s'.cdr id = s.cdr id) : s'.Named v := by
  induction h
  case nil => exact .nil
  case symbol => exact .symbol
  case pair id x hc _ hi =>
    have ⟨hcar, hcdr⟩ := hu [] id .here
    refine .pair (hcar.trans hc) (hcdr ▸ hi fun ids id' hs => hu (id :: ids) id' (.pair hs))

end Store

namespace Machine

variable {m m₀ m₁ : Machine} {s : Store} {frame : FrameId} {f : Frame} {v args : Value} {fuel : Nat}
variable {names : List Symbol} {r : Remainder}

theorem named_of_checkParamsFrom (h : checkParamsFrom fuel v m = .ok () m₁) :
    m.image.store.Named v := by
  induction fuel generalizing v
  all_goals cases v
  case zero.nil | succ.nil => exact .nil
  case zero.symbol | succ.symbol => exact .symbol
  case succ.pair fuel hi id =>
    simp only [checkParamsFrom, query, Bind.bind, EStateM.bind] at h
    cases hc : m.image.store.car id <;> rw [hc] at h
    case symbol => exact .pair hc (hi h)
    all_goals cases h
  all_goals cases h

theorem named_of_checkParams (h : checkParams v m = .ok () m₁) : m.image.store.Named v :=
  named_of_checkParamsFrom h

def withFrame (m : Machine) (e : FrameId) (f : Frame) : Machine :=
  { m with image.store := m.image.store.setFrame e f }

theorem define_eq_withFrame {x : Symbol} (h : m.image.store.frame frame = .ok f) :
    (liftM (Store.define frame x v) : Run Unit) m = .ok () (m.withFrame frame (f.define x v)) :=
  onStore_of_ok (Store.define_eq_setFrame h)

-- What the names are bound to, and the name for the rest if there is one.
def matched (s : Store) (names : List Symbol) (r : Remainder) (ids : List PairId) (rest : Value) :
    List (Symbol × Value) :=
  names.zip (ids.map s.car) ++ (r.name? s).toList.map (·, rest)

-- A match comes to this: there are arguments enough for the names, and what is left may be left. If
-- not, the fault is one of the arguments or of the name for the rest.
inductive Matches (s : Store) (m : Machine) (frame : FrameId) (f : Frame) (names : List Symbol)
    (r : Remainder) (args : Value) : EStateM.Result Fault Machine Unit → Prop
  | fits {ids : List PairId} {rest : Value} : s.Spine args ids rest → ids.length = names.length →
    r.Admits s rest → Matches s m frame f names r args
      (.ok () (m.withFrame frame (f.defineAll (matched s names r ids rest))))
  | fails {cause : Malformed} {g : Frame} :
    (∀ ids rest, s.Spine args ids rest → ids.length = names.length → ¬r.Admits s rest) →
    cause ≠ .parameterNotSymbol → cause ≠ .badTemplate →
    Matches s m frame f names r args (.error (.malformed cause) (m.withFrame frame g))

theorem withFrame_self (h : m.image.store.frame frame = .ok f) : m.withFrame frame f = m := by
  rw [withFrame, Store.setFrame_self h]

theorem withFrame_withFrame {g : Frame} :
    (m.withFrame frame f).withFrame frame g = m.withFrame frame g := by
  simp only [withFrame, Store.setFrame_setFrame]

theorem Matches.name {x : Symbol} {id : PairId} {res : EStateM.Result Fault Machine Unit}
    (h : Matches s (m.withFrame frame (f.define x (s.car id))) frame (f.define x (s.car id)) names r
      (s.cdr id) res) : Matches s m frame f (x :: names) r (.pair id) res := by
  cases h
  case fits ids rest hs hl ha =>
    rw [withFrame_withFrame]
    exact .fits (.pair hs) (congrArg (· + 1) hl) ha
  case fails hn hp hb =>
    rw [withFrame_withFrame]
    refine .fails (fun ids rest hs hl => ?_) hp hb
    obtain _ | ⟨_, ids⟩ := ids
    · cases hl
    · cases hs
      case pair hs => exact hn ids rest hs (Nat.succ.inj hl)

theorem Matches.too_few {x : Symbol} (hf : m.image.store.frame frame = .ok f)
    (ha : args.isPair = false) :
    Matches s m frame f (x :: names) r args (.error (.malformed .tooFewArguments) m) := by
  have hm : Matches s m frame f (x :: names) r args
      (.error (.malformed .tooFewArguments) (m.withFrame frame f)) := by
    refine .fails (fun ids rest hs hl => ?_) nofun nofun
    cases hs
    case here => cases hl
    case pair => cases ha
  rwa [withFrame_self hf] at hm

theorem Matches.rest {cause : Malformed} (hf : m.image.store.frame frame = .ok f)
    (hr : ¬r.Admits s args) (hp : cause ≠ .parameterNotSymbol) (hb : cause ≠ .badTemplate) :
    Matches s m frame f [] r args (.error (.malformed cause) m) := by
  have hm : Matches s m frame f [] r args (.error (.malformed cause) (m.withFrame frame f)) := by
    refine .fails (fun ids rest hs hl => ?_) hp hb
    cases hs
    case here => exact hr
    case pair => cases hl
  rwa [withFrame_self hf] at hm

theorem Matches.named {x : Symbol} (hx : r.name? s = some x) :
    Matches s m frame f [] r args (.ok () (m.withFrame frame (f.define x args))) := by
  have hm : f.define x args = f.defineAll (matched s [] r [] args) := by
    rw [matched, hx]
    rfl
  rw [hm]
  exact .fits .here rfl (.inr <| hx ▸ rfl)

-- The frame changes along the way, but the pairs do not.
theorem bindParamsFrom_matches (h : s.Params v names r) (hm : m.image.store.cells = s.cells)
    (hf : m.image.store.frame frame = .ok f) (hn : names.length + r.pairs ≤ fuel) :
    Matches s m frame f names r args (bindParamsFrom frame fuel v args m) := by
  have hcar {m : Machine} (hm : m.image.store.cells = s.cells) (id : PairId) :
      m.image.store.car id = s.car id := by rw [Store.car, Store.car, hm]
  have hcdr {m : Machine} (hm : m.image.store.cells = s.cells) (id : PairId) :
      m.image.store.cdr id = s.cdr id := by rw [Store.cdr, Store.cdr, hm]
  have huncons {m : Machine} (hm : m.image.store.cells = s.cells) (v : Value) :
      m.image.store.uncons? v = s.uncons? v := by cases v <;> simp [Store.uncons?, hcar hm, hcdr hm]
  induction h generalizing m f args fuel
  case nil =>
    rw [bindParamsFrom]
    cases args
    case nil =>
      have hd : Matches s m frame f [] .none .nil (.ok () (m.withFrame frame f)) :=
        .fits .here rfl (.inl ⟨rfl, rfl⟩)
      rwa [withFrame_self hf] at hd
    all_goals
      exact .rest hf (by simp [Remainder.Admits, Remainder.name?]) (fun h => by cases h)
        (fun h => by cases h)
  case tail x =>
    rw [bindParamsFrom, define_eq_withFrame hf]
    exact .named rfl
  case marked id hc =>
    obtain _ | fuel := fuel
    · cases hn
    simp only [bindParamsFrom, query, Bind.bind, EStateM.bind, hcar hm, hcdr hm, hc, if_pos,
      huncons hm]
    have hx : (Remainder.marked (s.cdr id)).name? s = match s.uncons? (s.cdr id) with
      | some (.symbol x, .nil) => some x
      | _ => none := rfl
    generalize s.uncons? (s.cdr id) = p at hx
    obtain _ | ⟨⟨⟩, ⟨⟩⟩ := p
    case some.symbol.nil x =>
      simp only [define_eq_withFrame hf]
      exact .named hx
    all_goals
      exact .rest hf (by simp [Remainder.Admits, hx]) (fun h => by cases h) (fun h => by cases h)
  case name id x names r hc hx _ hi =>
    obtain _ | fuel := fuel
    · simp at hn
    rw [List.length_cons, Nat.add_right_comm] at hn
    simp only [bindParamsFrom, query, Bind.bind, EStateM.bind, hcar hm, hcdr hm, hc, if_neg hx,
      huncons hm]
    cases args
    case pair id' =>
      simp only [Store.uncons?, EStateM.bind, define_eq_withFrame hf]
      refine .name (hi hm ?_ (Nat.le_of_succ_le_succ hn))
      rw [withFrame, Store.frame_setFrame hf, if_pos rfl]
    all_goals exact .too_few hf rfl

-- The parameters may have been checked long before, as long as nobody has changed them since. The
-- arguments need not be a list.
theorem bindParams_exact {params : Value} (hc : checkParams params m₀ = .ok () m₁)
    (hu : ∀ ids id, m₀.image.store.Spine params ids (.pair id) →
      m.image.store.car id = m₀.image.store.car id ∧ m.image.store.cdr id = m₀.image.store.cdr id)
    (hf : m.image.store.frame frame = .ok f) (hn : f.bindings = []) (args : Value) :
    ∃ names r, m.image.store.Params params names r ∧
      ((∃ m', bindParams frame params args m = .ok () m') ↔
        (r = .none ∧ ∃ ids, m.image.store.Spine args ids .nil ∧ ids.length = names.length) ∨
        (r.name? m.image.store).isSome ∧
          ∃ ids rest, m.image.store.Spine args ids rest ∧ ids.length = names.length) ∧
      (∀ m', bindParams frame params args m = .ok () m' → ∃ ids rest f',
        m.image.store.Spine args ids rest ∧ ids.length = names.length ∧
        m' = m.withFrame frame f' ∧ f'.parent = f.parent ∧ ∀ x, f'.get? x =
          (names.zip (ids.map m.image.store.car) ++
            (r.name? m.image.store).toList.map (·, rest)).reverse.lookup x) ∧
      ∀ fault m', bindParams frame params args m = .error fault m' → ∃ cause f',
        fault = .malformed cause ∧ cause ≠ .parameterNotSymbol ∧ cause ≠ .badTemplate ∧
        m' = m.withFrame frame f' := by
  have hnamed := (named_of_checkParams hc).of_spine hu
  have ⟨names, r, hp⟩ := hnamed.exists_params
  have hm : Matches m.image.store m frame f names r args (bindParams frame params args m) :=
    bindParamsFrom_matches hp rfl hf (hnamed.pairs_le hp)
  refine ⟨names, r, hp, ?_⟩
  generalize bindParams frame params args m = res at hm
  cases hm
  case fits ids rest hs hl ha =>
    refine ⟨iff_of_true ⟨_, rfl⟩ ?_, ?_, fun _ _ h => by cases h⟩
    · rcases ha with ⟨rfl, rfl⟩ | hx
      · exact .inl ⟨rfl, ids, hs, hl⟩
      · exact .inr ⟨hx, ids, rest, hs, hl⟩
    · rintro _ ⟨⟩
      refine ⟨ids, rest, _, hs, hl, rfl, Frame.parent_defineAll, fun x => ?_⟩
      rw [Frame.get?_defineAll, Frame.get?, hn, List.lookup_nil, Option.or_none]
      rfl
  case fails hne hp hb =>
    refine ⟨iff_of_false (fun h => by cases h.choose_spec) ?_, fun _ h => (by cases h), ?_⟩
    · rintro (⟨rfl, ids, hs, hl⟩ | ⟨hx, ids, rest, hs, hl⟩)
      · exact hne ids .nil hs hl (.inl ⟨rfl, rfl⟩)
      · exact hne ids rest hs hl (.inr hx)
    · rintro _ _ ⟨⟩
      exact ⟨_, _, rfl, hp, hb, rfl⟩

-- The parameters `(x & y)` and, next to them, the chain `(1 2 . 3)`.
def variadic (x y : Symbol) : Machine where
  image.store := { Store.new 5 1 with
    cells := #[⟨.symbol x, .pair ⟨1⟩⟩, ⟨.symbol .ampersand, .pair ⟨2⟩⟩, ⟨.symbol y, .nil⟩,
      ⟨.int 1, .pair ⟨4⟩⟩, ⟨.int 2, .int 3⟩]
    frames.entries := #[some {}] }
  image.symbols := .base
  control := .start .nil ⟨0⟩
  global := ⟨0⟩
  settings := {}
  generator := default
  clock := default

-- The chain matches, its second pair is the rest. No arguments at all do not.
theorem bindParams_exact_variadic : ∃ f cause f',
    bindParams ⟨0⟩ (.pair ⟨0⟩) (.pair ⟨3⟩) (variadic ⟨100⟩ ⟨101⟩) =
      .ok () ((variadic ⟨100⟩ ⟨101⟩).withFrame ⟨0⟩ f) ∧
    f.get? ⟨100⟩ = some (.int 1) ∧ f.get? ⟨101⟩ = some (.pair ⟨4⟩) ∧
    bindParams ⟨0⟩ (.pair ⟨0⟩) .nil (variadic ⟨100⟩ ⟨101⟩) =
      .error (.malformed cause) ((variadic ⟨100⟩ ⟨101⟩).withFrame ⟨0⟩ f') := by
  have hc : checkParams (.pair ⟨0⟩) (variadic ⟨100⟩ ⟨101⟩) = .ok () (variadic ⟨100⟩ ⟨101⟩) := rfl
  have hu (ids : List PairId) (id : PairId)
      (_ : (variadic ⟨100⟩ ⟨101⟩).image.store.Spine (.pair ⟨0⟩) ids (.pair id)) :
      (variadic ⟨100⟩ ⟨101⟩).image.store.car id = (variadic ⟨100⟩ ⟨101⟩).image.store.car id ∧
      (variadic ⟨100⟩ ⟨101⟩).image.store.cdr id = (variadic ⟨100⟩ ⟨101⟩).image.store.cdr id :=
    ⟨rfl, rfl⟩
  have hf : (variadic ⟨100⟩ ⟨101⟩).image.store.frame ⟨0⟩ = .ok {} := rfl
  have hp : (variadic ⟨100⟩ ⟨101⟩).image.store.Params (.pair ⟨0⟩) [⟨100⟩] (.marked (.pair ⟨2⟩)) :=
    .name rfl (by decide) (.marked rfl)
  obtain ⟨_, _, hp₁, hok, hb, -⟩ := bindParams_exact hc hu hf rfl (.pair ⟨3⟩)
  obtain ⟨_, _, hp₂, hok', -, he⟩ := bindParams_exact hc hu hf rfl .nil
  obtain ⟨rfl, rfl⟩ := hp.unique hp₁
  obtain ⟨rfl, rfl⟩ := hp.unique hp₂
  obtain ⟨m, hm⟩ := hok.mpr (.inr ⟨rfl, [⟨3⟩], .pair ⟨4⟩, .pair .here, rfl⟩)
  obtain ⟨ids, rest, f, hs, hl, rfl, -, hget⟩ := hb m hm
  obtain ⟨rfl, rfl⟩ : ids = [⟨3⟩] ∧ rest = .pair ⟨4⟩ := by
    obtain _ | ⟨_, _ | _⟩ := ids <;> cases hl
    cases hs
    case pair hs =>
      cases hs
      exact ⟨rfl, rfl⟩
  have hfew : ¬∃ m, bindParams ⟨0⟩ (.pair ⟨0⟩) .nil (variadic ⟨100⟩ ⟨101⟩) = .ok () m := by
    rw [hok']
    rintro (⟨h, -⟩ | ⟨-, ids, rest, hs, hl⟩)
    · cases h
    · cases hs
      cases hl
  cases hres : bindParams ⟨0⟩ (.pair ⟨0⟩) .nil (variadic ⟨100⟩ ⟨101⟩)
  case ok m' => exact absurd ⟨m', hres⟩ hfew
  case error fault m' =>
    obtain ⟨cause, f', rfl, -, -, rfl⟩ := he _ _ hres
    exact ⟨f, cause, f', hm, hget _, hget _, rfl⟩

end Machine
end StepLisp
