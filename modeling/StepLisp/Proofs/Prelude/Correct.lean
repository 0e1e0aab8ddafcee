import StepLisp.Proofs.Prelude.HigherOrder
import StepLisp.Proofs.Prelude.Loading

namespace StepLisp

open Machine Library

-- A call of one of the list procedures, but for the list.
inductive Use
  | length
  | reverse
  | append (b : Value)
  | foldl (f a : Value)
  | map (f : Value)
  | filter (f : Value)

namespace Use

def procedure : Use → Definition
  | length => .length
  | reverse => .reverse
  | append _ => .append
  | foldl .. => .foldl
  | map _ => .map
  | filter _ => .filter

def args (xs : Value) : Use → List Value
  | length | reverse => [xs]
  | append b => [xs, b]
  | foldl f a => [f, a, xs]
  | map f | filter f => [f, xs]

-- The procedure that is to be called on the elements.
def callee? : Use → Option Value
  | length | reverse | append _ => none
  | foldl f _ | map f | filter f => some f

-- How deep above the caller's stack it is called.
def depth : Use → Nat
  | length | reverse | append _ => 1
  | foldl .. => 7
  | map _ => 19
  | filter _ => 17

-- With how many arguments.
def arity : Use → Nat
  | foldl .. => 2
  | _ => 1

-- The variables of the list procedures whose lists it has to leave alone.
def lists : Use → List String
  | foldl .. => ["xs"]
  | _ => ["xs", "acc"]

-- The answer for a list with elements `vs`, where these calls have been made.
def Answer (s : Store) (waiting : List Ref) (vs : List Value) (log : List Call) (v : Value) :
    Use → Prop
  | length => ∃ n, v = .int n ∧ n.toInt = vs.length
  | reverse => s.Fresh waiting v vs.reverse .nil
  | append b => s.Fresh waiting v vs b
  | foldl _ a => Folds a vs log v
  | map _ => log.map Call.args = vs.map ([·]) ∧ s.Fresh waiting v (log.map Call.value) .nil
  | filter _ => log.map Call.args = vs.map ([·]) ∧
    s.Fresh waiting v (((vs.zip log).filter fun c => !c.2.value.isNil).map Prod.fst) .nil

-- A call of `u` on a list with these elements has come back.
structure Done (lib : Library) (u : Use) (p : Place) (vs : List Value) (kept : List Ref)
    (m : Machine)
    (log : List Call) (m' : Machine) : Prop where
  calling : Calling (u.callee?.getD .nil) (p.slots.length + u.depth) p.slots
    (.apply (lib.value u.procedure), m) log (p.cont, m')
  going : m'.Going p.cont
  loaded : lib.Loaded m'
  back : m'.With m'.control.val p
  answer : u.Answer m'.image.store p.waiting vs log m'.control.val
  kept : Remains p kept m m'
  quiet : u.callee? = none → log = [] ∧ Leaves p.waiting (p.slots.length + 27) m m'

variable {lib : Library} {u : Use} {m m' : Machine} {p : Place} {xs : Value} {ids : List PairId}
variable {vs : List Value} {kept : List Ref} {log : List Call}

theorem exists_done_of_computes (hd : u.depth = 1) (hg : m.Going (.apply (lib.value u.procedure)))
    (hm : m.ToApply (u.args xs) p) (hk : ∀ r ∈ kept, m.image.store.Refers p.waiting r)
    (hc : Computes (p.slots.length + 1) p.waiting p.slots (p.slots.length + 27) 0
      (.apply (lib.value u.procedure)) m p.cont fun m' => lib.Loaded m' ∧ ∃ r, m'.With r p ∧
        u.Answer m'.image.store p.waiting vs [] r) : ∃ log m', u.Done lib p vs kept m log m' := by
  obtain ⟨m', hs, hl, hg', -, hload, r, hm', ha⟩ := hc
  have hkept : Remains p kept m m' := Remains.leaves (fun r hr => ⟨hk r hr, rfl⟩) hg
    (fun r hr => hm.mem_roots (List.mem_cons_of_mem _ hr)) (fun _ => .root) hl
  have hr : m'.control.val = r := hm'.val
  subst hr
  exact ⟨[], m', .quiet (hd ▸ hs), hg', hload, hm', ha, hkept, fun _ => ⟨rfl, hl⟩⟩

theorem filterMap_eq (h : log.map Call.args = vs.map ([·])) :
    (log.filterMap fun c => if c.value.isNil then none else c.args.head?) =
      ((vs.zip log).filter fun c => !c.2.value.isNil).map Prod.fst := by
  induction vs generalizing log
  case nil =>
    cases List.map_eq_nil_iff.mp h
    rfl
  case cons v vs hi =>
    obtain _ | ⟨c, log⟩ := log
    · cases h
    obtain ⟨hc, h⟩ := List.cons_eq_cons.mp h
    rw [List.zip_cons_cons, List.filterMap_cons, List.filter_cons, hc, hi h]
    cases c.value.isNil <;> simp

variable (hl : lib.Loaded m) (hg : m.Going (.apply (lib.value u.procedure)))
variable (hm : m.ToApply (u.args xs) p) (hrow : m.image.store.Row xs ids vs .nil)
variable (hr : 64 * (vs.length + 3) ≤ m.image.store.room)
variable (hk : ∀ r ∈ kept, m.image.store.Refers p.waiting r)
include hl hg hm hrow hr hk

-- One that calls nothing.
theorem exists_done_of_none (hu : u.callee? = none) (hn : u = .length → vs.length < 2 ^ 63) :
    ∃ log m', u.Done lib p vs kept m log m' := by
  have hv : p.Clear (p.slots.length + 1) := fun i hi => by simp at hi; omega
  have hv' : ∀ i ∈ [6, 7], p.slots.length + i ≠ p.slots.length + 1 := fun i hi => by
    simp at hi; omega
  have hr₀ : 0 + 32 * (vs.length + 2) ≤ m.image.store.room := by omega
  have hh : p.slots.length + 19 ≤ p.slots.length + 27 := by omega
  cases u
  case length =>
    exact exists_done_of_computes rfl hg hm hk <| hl.length hg hm hrow (hn rfl) hr₀ hh hv hv'
  case reverse => exact exists_done_of_computes rfl hg hm hk <| hl.reverse hg hm hrow hr₀ hh hv hv'
  case append =>
    exact exists_done_of_computes rfl hg hm hk <| hl.append hg hm hrow (by omega) (Nat.le_refl _)
  case foldl | map | filter => cases hu

-- One that calls a procedure on the elements.
theorem exists_done_of_some {f : Value} (hu : u.callee? = some f) (ho : Ordinary m.image.store f)
    (hf : lib.Considerate u.lists p kept f (64 * (vs.length + 3)) (p.slots.length + u.depth)
      u.arity vs
      (.apply (lib.value u.procedure), m)) : ∃ log m', u.Done lib p vs kept m log m' := by
  cases u
  case length | reverse | append => cases hu
  all_goals cases hu
  case foldl =>
    obtain ⟨b, log, m', hc, hg', hl', hm', ha, hk'⟩ := hl.foldl hg hm ho hrow hr (by omega) hk hf
    cases hm'.val
    exact ⟨log, m', hc, hg', hl', hm', ha, hk', nofun⟩
  case map =>
    obtain ⟨r, log, m', hc, hg', hl', hm', ha, hfresh, hk'⟩ :=
      hl.map hm ho hrow hr (Nat.le_refl _) hk hg hf
    rw [List.filterMap_eq_map'] at hfresh
    cases hm'.val
    exact ⟨log, m', hc, hg', hl', hm', ⟨ha, hfresh⟩, hk', nofun⟩
  case filter =>
    obtain ⟨r, log, m', hc, hg', hl', hm', ha, hfresh, hk'⟩ :=
      hl.filter hm ho hrow hr (Nat.le_refl _) hk hg hf
    rw [filterMap_eq ha] at hfresh
    cases hm'.val
    exact ⟨log, m', hc, hg', hl', hm', ⟨ha, hfresh⟩, hk', nofun⟩

end Use

section Main

variable {lib : Library} {m : Machine} {p : Place} {xs : Value} {ids : List PairId}
  {vs : List Value}
variable {kept : List Ref}

-- Whatever the caller keeps of the list is as it was. A procedure that is called has to be
-- considerate.
theorem list_procedures_correct (u : Use) (hl : lib.Loaded m)
    (hg : m.Going (.apply (lib.value u.procedure))) (hm : m.ToApply (u.args xs) p)
    (hrow : m.image.store.Row xs ids vs .nil) (hn : u = .length → vs.length < 2 ^ 63)
    (hr : 64 * (vs.length + 3) ≤ m.image.store.room)
    (hk : ∀ r ∈ kept, m.image.store.Refers p.waiting r)
    (hf : ∀ f, u.callee? = some f → Ordinary m.image.store f ∧
      lib.Considerate u.lists p kept f (64 * (vs.length + 3)) (p.slots.length + u.depth) u.arity vs
        (.apply (lib.value u.procedure), m)) :
    ∃ log m', u.Done lib p vs kept m log m' ∧ ∃ j, ∀ rest n,
      Course (.running rest (n + j) (.apply (lib.value u.procedure)) m)
        (.running rest n p.cont m') := by
  obtain ⟨log, m', hd⟩ : ∃ log m', u.Done lib p vs kept m log m' := by
    cases hu : u.callee?
    case none => exact Use.exists_done_of_none hl hg hm hrow hr hk hu hn
    case some f =>
      have ⟨ho, hf⟩ := hf f hu
      exact Use.exists_done_of_some hl hg hm hrow hr hk hu ho hf
  exact ⟨log, m', hd, hd.calling.toOver.course⟩

end Main

section Sessions

theorem list_procedures_correct_null :
    ∃ rest n, ∃ lib : Library, ∃ m p, ∃ vs : List Value, ∃ ids : List PairId, ∃ log m',
    Reached (.running rest n (.apply (lib.value (Use.map Builtin.isNull.value).procedure)) m) ∧
      vs.length = 2 ∧ ids.length = 2 ∧
      Use.Done lib (Use.map Builtin.isNull.value) p vs (ids.map Handle.ref) m log m' := by
  obtain ⟨m, hn, ht⟩ := exists_new_mapsNull
  unfold mapsNull at ht
  split at ht <;> try exact absurd ht Bool.false_ne_true
  case h_1 rest n id m₁ hA =>
    simp only [Bool.and_eq_true, decide_eq_true_eq] at ht
    obtain ⟨⟨⟨⟨hload, rfl⟩, hcont⟩, hroom⟩, ht⟩ := ht
    split at ht <;> try exact absurd ht Bool.false_ne_true
    case h_1 f b i hf hargl =>
      simp only [Bool.and_eq_true, decide_eq_true_eq] at ht
      obtain ⟨⟨rfl, hlen⟩, ht⟩ := ht
      split at ht <;> try exact absurd ht Bool.false_ne_true
      case h_1 j hx =>
        cases of_decide_eq_true ht
        have h₀ : Reached (.reading (Reader.walk sample.toList) m) :=
          reached_request (.new hn) _
        have hr : Reached (.running rest n (.apply ((ofMachine m₁).value .map)) m₁) :=
          hA ▸ h₀.iterate 10
        have hg := going_of_reached hr
        have hl := loaded_of_isLoaded hload
        let p : Place := ⟨m₁.global, m₁.control.env, m₁.control.cont, m₁.control.stack.slots⟩
        obtain ⟨js, hargs⟩ := hg.exists_row (Store.holds_of_subset fun r hr =>
          mem_roots_of_control (by simp [Control.roots, hr])) hargl
        have hm : m₁.ToApply [Builtin.isNull.value, .pair i] p := ⟨⟨rfl, rfl, rfl, rfl⟩, js, hargs⟩
        have hglobal : m₁.image.store.Refers p.waiting m₁.global.ref := .root List.mem_cons_self
        have hxs : m₁.image.store.Holds p.waiting (.pair i) := hglobal.holds hf hx
        obtain ⟨vs, hvs, hlen⟩ := Option.map_eq_some_iff.mp hlen
        obtain ⟨ids, hrow⟩ := hg.exists_row (fun r hr => (hxs r hr).mono fun _ hr =>
          .root (hm.mem_roots (Place.waiting_subset_held hr))) hvs
        have hk : ∀ r ∈ ids.map Handle.ref, m₁.image.store.Refers p.waiting r :=
          List.forall_mem_map.mpr (hrow.refers hxs)
        obtain ⟨log, m', hd, -⟩ :=
          list_procedures_correct (Use.map Builtin.isNull.value) hl hg hm hrow
          (fun h => by cases h) (by rw [hlen]; exact hroom) hk fun f hf => by
            cases hf
            refine ⟨ordinary_value rfl, considerate_of_quiet (fun s => ordinary_value rfl)
              (List.isEmpty_iff.mp hcont) hg rfl
              (List.suffix_refl _) ?_⟩
            intro m₂ args q hg₂ hm₂ ha
            obtain ⟨v, rfl⟩ := List.length_eq_one_iff.mp ha
            exact ⟨q.slots.length + 1, _, hm₂.isNull hg₂ (by omega)⟩
        exact ⟨rest, n, ofMachine m₁, m₁, p, vs, ids, log, m', hr, hlen,
          hrow.length_eq.trans hlen, hd⟩

-- So the list that `map` makes may be longer than the one it was given.
theorem map_eval_longer : ∃ m v m', Machine.new { maxSteps := 2000 } default {} = .ok m ∧
    evalText "(map eval '((set! acc '(9)) 2))" m = .ok v m' ∧
    m'.image.store.toList? v = some [.int 9, .nil, .int 2] := by
  obtain ⟨m, hn, ht⟩ := exists_new_mapsEval
  unfold mapsEval at ht
  split at ht <;> try exact absurd ht Bool.false_ne_true
  case h_1 v m' he =>
    split at ht <;> try exact absurd ht Bool.false_ne_true
    case h_1 i j hl =>
      have ⟨hi, hj⟩ := Bool.and_eq_true_iff.mp ht
      rw [of_decide_eq_true hi, of_decide_eq_true hj] at hl
      exact ⟨m, v, m', hn, he, hl⟩

end Sessions
end StepLisp
