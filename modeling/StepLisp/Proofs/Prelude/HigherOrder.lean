import StepLisp.Proofs.Prelude.Lists

namespace StepLisp

open Machine Library

variable {lib : Library} {m m' m₀ : Machine} {p q : Place} {f a b l x y xs rest : Value}
  {e : FrameId}
variable {id : ClosureId} {kept held : List Ref} {h level spare need : Nat} {next : Step}
variable {vs ws done : List Value} {ids : List PairId} {log : List Call} {d : Datum}

-- Folds

-- A left fold, by its calls: each is on the accumulator and an element, and gives the next
-- accumulator.
inductive Folds : Value → List Value → List Call → Value → Prop
  | nil {a : Value} : Folds a [] [] a
  | cons {a x b c : Value} {vs : List Value} {log : List Call} : Folds b vs log c →
    Folds a (x :: vs) (⟨[a, x], b⟩ :: log) c

namespace Folds

theorem length_eq (h : Folds a vs log b) : log.length = vs.length := by
  induction h
  case nil => rfl
  case cons hi => rw [List.length_cons, List.length_cons, hi]

theorem snoc {c : Value} (h : Folds a vs log b) : Folds a (vs ++ [x]) (log ++ [⟨[b, x], c⟩]) c := by
  induction h
  case nil => exact .cons .nil
  case cons hi => exact .cons hi

-- Where the value of a call is a function of its arguments, this is the fold of that function.
theorem eq_foldl {g : Value → Value → Value} (h : Folds a vs log b)
    (hg : ∀ c ∈ log, ∀ u v, c.args = [u, v] → c.value = g u v) : b = vs.foldl g a := by
  induction h
  case nil => rfl
  case cons hi =>
    have ⟨hc, hlog⟩ := List.forall_mem_cons.mp hg
    have hb : _ = g _ _ := hc _ _ rfl
    rw [hi hlog, List.foldl_cons, ← hb]

end Folds

theorem getElem?_of_split (hw : done ++ x :: vs = ws) (hl : log.length = done.length) :
    ws[log.length]? = some x := by
  rw [hl, ← hw, List.getElem?_append_right (Nat.le_refl _), Nat.sub_self, List.getElem?_cons_zero]

theorem foldl_advances (hf : lib.Considerate ["xs"] p kept f need (p.slots.length + 7) 2 ws
      (.apply (lib.value .foldl), m₀)) (hn : 32 * (ws.length + 2) ≤ need) :
    Advances lib p f f (p.slots.length + 7) p.slots (.apply (lib.value .foldl), m₀) 0 ws
      fun done log b m => Folds a done log b ∧ Remains p kept m₀ m := by
  intro b x l rest i ids vs done log m e q hpre hg hfold hm hrow hj hw hroom
  let t := lib.foldPlace q f rest
  have hslots : p.slots <:+ t.slots := (Place.operand_above : t.Above q).slots
  obtain ⟨y, m₁, hrun, hg₁, hm₁, hs⟩ := hf.call hpre hg hfold.active.loaded hm hslots
    (lib.length_foldPlace q f rest) rfl
    (getElem?_of_split hw hj.left.length_eq).symm
  let τ : List Slot :=
    [.env e, .value rest, .value f, .sentinel, .callee (.proc (lib.value .foldl)),
    .env e, .step p.cont]
  have hτ : m.control.stack.slots = τ ++ p.slots := hm.slots
  have hrest : ∀ r ∈ rest.refs, m.image.store.Refers (τ.flatMap Slot.refs) r := fun r hr =>
    .root <| List.mem_flatMap.mpr ⟨.value rest, by simp [τ], hr⟩
  have hact := hs.active hτ hfold.active (by simp [τ, q]) (hm₁.global.trans hm.global.symm)
  have hlen := congrArg List.length hw
  rw [List.length_append, List.length_cons] at hlen
  refine ⟨y, _, m₁, hrun, hg₁, ⟨hact, hs.spells hτ hfold.rest hrest, hs.ordinary⟩, hm₁, ?_,
    ⟨hj.left.snoc, hj.right.spares hs⟩, by have := hs.room; omega⟩
  exact hs.row hτ hfold.active.framed (by simp [τ, q]) hfold.active.loaded.injOn hfold.active.known
    (by decide) (List.mem_cons_self : "xs" ∈ ["xs"]) rfl hrow

theorem Library.Loaded.foldl (hl : lib.Loaded m) (hg : m.Going (.apply (lib.value .foldl)))
    (hm : m.ToApply [f, a, l] p) (ho : Ordinary m.image.store f)
    (hrow : m.image.store.Row l ids vs .nil) (hr : need ≤ m.image.store.room)
    (hn : 32 * (vs.length + 2) ≤ need) (hk : ∀ r ∈ kept, m.image.store.Refers p.waiting r)
    (hf : lib.Considerate ["xs"] p kept f need (p.slots.length + 7) 2 vs
      (.apply (lib.value .foldl), m)) : ∃ b log m',
      Calling f (p.slots.length + 7) p.slots (.apply (lib.value .foldl), m) log (p.cont, m') ∧
      m'.Going p.cont ∧ lib.Loaded m' ∧ m'.With b p ∧ Folds a vs log b ∧ Remains p kept m m' := by
  have hturn : Turning lib p f a l ids vs 0 m := ⟨hg, hl, ⟨p.env, hm⟩, ho, hrow, by omega⟩
  have hlast : ∀ done log, Lasting p f (p.slots.length + 19)
      fun b m' => Folds a done log b ∧ Remains p kept m m' :=
    fun _ _ => fun hj hg hw hh _ _ hl => ⟨hj.left, hj.right.leaves hg hw hh hl⟩
  obtain ⟨b, log, m', hrun, hg', hm', hl', -, hfolds, hkept⟩ :=
    hturn.runs hlast (foldl_advances hf hn)
    (List.suffix_refl _) (Nat.le_refl _) (fun i hi => by simp at hi; omega) (.quiet .refl)
    ⟨.nil, fun r hr => ⟨hk r hr, rfl⟩⟩ rfl
  exact ⟨b, log, m', hrun, hg', hl', hm', hfolds, hkept⟩

-- Traversals

-- A call of a procedure that goes through a list and makes a new one: its parameters, the body of
-- its closure, and what it takes from a call of the procedure that it was given.
structure Traversal where
  params : List String
  body : Datum
  out : Call → Option Value
  f : Value
  xs : Value
  place : Place
  id : ClosureId
  kept : List Ref
  start : Machine

namespace Traversal

variable {c : Traversal} {F L : FrameId} {s : Step × Machine} {t : Place}

def bindings (lib : Library) (c : Traversal) : Bindings :=
  lib.inside c.params [c.f, c.xs]

-- Where the fold goes on.
def foldAt (lib : Library) (c : Traversal) : Place :=
  c.place.operand (lib.value .reverse) [] .nil

-- Where the closure is applied to an element.
def elementAt (lib : Library) (c : Traversal) (F : FrameId) (rest : Value) : Place :=
  lib.foldPlace { c.foldAt lib with env := F } (.closure c.id) rest

-- Where the body of the closure is evaluated.
abbrev insideAt (lib : Library) (c : Traversal) (F L : FrameId) (rest : Value) : Place :=
  { c.elementAt lib F rest with env := L }

-- What waits there, on top of what waits for the traversal itself.
def pending (lib : Library) (c : Traversal) (F : FrameId) (rest : Value) : List Slot :=
  [.env F, .value rest, .value (.closure c.id), .sentinel,
    .callee (.proc (lib.value .foldl)), .env F,
    .step .evalOperand, .env c.place.env, .value .nil, .sentinel,
    .callee (.proc (lib.value .reverse)),
    .env c.place.env, .step c.place.cont]

theorem slots_elementAt : (c.elementAt lib F rest).slots = c.pending lib F rest ++ c.place.slots :=
  rfl

theorem suffix_elementAt : c.place.slots <:+ (c.elementAt lib F rest).slots :=
  ⟨c.pending lib F rest, slots_elementAt.symm⟩

theorem held_subset_foldAt : c.place.held ⊆ (c.foldAt lib).waiting :=
  Place.operand_above.held

theorem foldAt_subset_elementAt :
    (c.foldAt lib).waiting ⊆ (c.elementAt lib F rest).waiting := fun _ hr =>
  Place.operand_above.held (List.mem_cons_of_mem _ hr)

-- What has been collected, the last value first.
structure Holding (lib : Library) (c : Traversal) (done : List Value) (log : List Call) (a : Value)
    (m : Machine) : Prop where
  active : lib.Active c.params [c.f, c.xs] c.place m
  closes : m.image.store.Closes lib c.id ["acc", "x"] c.body c.place.env (c.bindings lib)
  ordinary : Ordinary m.image.store c.f
  kept : Remains c.place c.kept c.start m
  args : log.map Call.args = done.map ([·])
  exists_row : ∃ ids, m.image.store.Row a ids (log.filterMap c.out).reverse .nil

theorem Holding.lasting (hu : ∃ u, (c.bindings lib).lookup u = some c.f) (done : List Value)
    (log : List Call) : Lasting (c.foldAt lib) (.closure c.id) h (c.Holding lib done log) := by
  intro a m m' next held hm hg hw hh hf ha hl
  have hp : ∀ r ∈ c.place.held, m.image.store.Refers held r :=
    fun r hr => hh r (held_subset_foldAt hr)
  have ⟨u, hu⟩ := hu
  have ⟨ids, hrow⟩ := hm.exists_row
  have hwait : c.place.waiting ⊆ m.roots next := fun r hr =>
    hw (held_subset_foldAt (Place.waiting_subset_held hr))
  exact {
    active := hm.active.leaves hl hg.sound hp
    closes := hm.closes.keeps hf hl.keeps
    ordinary := hm.ordinary.keeps
      (fun r hr => (hm.active.holds hg.sound u hu r hr).mono hp) hl.keeps
    kept := hm.kept.leaves hg hwait (fun r hr => hp r (Place.waiting_subset_held hr)) hl
    args := hm.args
    exists_row := ⟨ids, hrow.keeps ha hl.keeps⟩ }

theorem Holding.length_eq (hm : c.Holding lib done log a m) : log.length = done.length := by
  simpa using congrArg List.length hm.args

-- Inside the closure.
structure Inside (lib : Library) (c : Traversal) (F L : FrameId) (a x l rest : Value)
    (ids : List PairId) (vs done : List Value) (log : List Call) (m : Machine) : Prop where
  folding : lib.Folding { c.foldAt lib with env := F } (.closure c.id) a l rest m
  framed : m.image.store.Framed lib L ["acc", "x"] [a, x] c.place.env
  row : m.image.store.Row l ids vs .nil
  holding : c.Holding lib done log a m

namespace Inside

theorem scope (hi : c.Inside lib F L a x l rest ids vs done log m) :
    m.image.store.Scope lib L ([("x", x), ("acc", a)] ++ c.bindings lib) :=
  hi.framed.scope hi.holding.active.scope hi.holding.active.loaded.injOn (by decide)
    (fst_mem_inside hi.holding.active.known)

theorem leaves (hi : c.Inside lib F L a x l rest ids vs done log m) (hg : m.Going next)
    (hu : ∃ u, (c.bindings lib).lookup u = some c.f)
    (hw : (c.elementAt lib F rest).waiting ⊆ m.roots next)
    (hh : ∀ r ∈ Place.held { c.elementAt lib F rest with env := L }, m.image.store.Refers held r)
    (hl : Leaves held h m m') : c.Inside lib F L a x l rest ids vs done log m' := by
  have hwait : ∀ r ∈ (c.elementAt lib F rest).waiting, m.image.store.Refers held r := fun r hr =>
    hh r (List.mem_cons_of_mem _ hr)
  have hholds {v : Value} (name : String) (hv : (lib.inside Definition.foldl.params
      [.closure c.id, a, l]).lookup name = some v) : m.image.store.Holds held v := fun r hr =>
    (hi.folding.active.holds hg.sound name hv r hr).mono fun r hr =>
      hwait r (Place.operand_above.held hr)
  exact {
    folding := hi.folding.leaves hg.sound (hl.mono hwait (Nat.le_refl _))
    framed := hi.framed.keeps (hh _ List.mem_cons_self) hl.keeps
    row := hi.row.keeps (hholds "xs" rfl) hl.keeps
    holding := Holding.lasting hu done log hi.holding hg
      (fun r hr => hw (foldAt_subset_elementAt hr))
      (fun r hr => hwait r (foldAt_subset_elementAt hr)) (hholds "f" rfl) (hholds "acc" rfl) hl }

-- The procedure that was given is called, and comes back.
theorem call (front : List Slot) (hi : c.Inside lib F L a x l rest ids vs done log m)
    (hf : lib.Considerate ["xs", "acc"] c.place c.kept c.f need level 1 ws s)
    (hc : Calling c.f level c.place.slots s log (.apply c.f, m)) (hg : m.Going (.apply c.f))
    (hm : m.ToApply [x] t) (ht : t.slots = front ++ (c.elementAt lib F rest).slots)
    (hL : .env L ∈ front) (hl : t.slots.length = level) (hx : ws[log.length]? = some x) : ∃ y m',
      Calling c.f level c.place.slots s (log ++ [⟨[x], y⟩]) (t.cont, m') ∧ m'.Going t.cont ∧
      m'.With y t ∧ c.Inside lib F L a x l rest ids vs done log m' ∧
      min need m.image.store.room ≤ m'.image.store.room ∧
      ∀ {v d}, .value v ∈ front → m.image.store.Spells lib v d → m'.image.store.Spells lib v d := by
  let τ := front ++ c.pending lib F rest
  have hslots : t.slots = τ ++ c.place.slots := by rw [ht, slots_elementAt, List.append_assoc]
  obtain ⟨y, m', hrun, hg', hm', hs⟩ := hf.call hc hg hi.folding.active.loaded hm
    (hslots ▸ List.suffix_append _ _) hl rfl hx.symm
  have hτ : m.control.stack.slots = τ ++ c.place.slots := hm.slots.trans hslots
  have hglobal : m'.global = m.global := hm'.global.trans hm.global.symm
  have hact := hs.active hτ hi.holding.active (by simp [τ, pending]) hglobal
  have hfold := hi.folding.active
  have hlist {v : Value} {ids : List PairId} {us : List Value} (name : String)
      (hn : name ∈ ["xs", "acc"]) (hv : (([("f", .closure c.id), ("acc", a), ("xs", l)] :
        Bindings)).reverse.lookup name = some v) (hr : m.image.store.Row v ids us .nil) :
      m'.image.store.Row v ids us .nil := by
    refine hs.row hτ hfold.framed (by simp [τ, pending]) hfold.loaded.injOn hfold.known ?_ hn hv hr
    rcases List.mem_pair.mp hn with rfl | rfl <;> decide
  have hspells {v : Value} {d : Datum} (hv : .value v ∈ τ) (h : m.image.store.Spells lib v d) :
      m'.image.store.Spells lib v d :=
    hs.spells hτ h fun r hr => .root <| List.mem_flatMap.mpr ⟨.value v, hv, hr⟩
  have ⟨is, hrow⟩ := hi.holding.exists_row
  have hc' := hs.closes hτ hi.holding.closes (by simp [τ, pending]) hact.scope
  refine ⟨y, m', hrun, hg', hm', ⟨⟨hs.active hτ hfold (by simp [τ, pending]) hglobal,
    hspells (by simp [τ, pending]) hi.folding.rest, hc'.ordinary⟩, ?_,
      hlist "xs" (by simp) rfl hi.row,
    ⟨hact, hc', hs.ordinary, hi.holding.kept.spares hs, hi.holding.args, is,
      hlist "acc" (by simp) rfl hrow⟩⟩,
    hs.room, fun hv h => hspells (List.mem_append_left _ hv) h⟩
  exact hi.framed.imp (hs.object? hτ (.frame (List.mem_append_left _ hL)))

theorem enter (hfold : lib.Folding { c.foldAt lib with env := F } (.closure c.id) a l rest m)
    (hj : c.Holding lib done log a m) (hu : ∃ u, (c.bindings lib).lookup u = some c.f)
    (hrow : m.image.store.Row l ids vs .nil) (hg : m.Going (.apply (.closure c.id)))
    (hm : m.ToApply [a, x] (c.elementAt lib F rest))
    (hl : (c.elementAt lib F rest).slots.length ≠ level) :
    Passes level (c.elementAt lib F rest).waiting (c.elementAt lib F rest).slots 0 h
      (.apply (.closure c.id)) m .eval fun m' => ∃ L,
        m'.ToEval lib c.body { c.elementAt lib F rest with env := L } ∧
        c.Inside lib F L a x l rest ids vs done log m' := by
  refine (hm.into hg hfold.active.loaded hj.closes rfl (by decide) hj.active.known hl).frame.imp ?_
  rintro m' ⟨⟨L, hm', hframed, -⟩, ha⟩
  have hholds {v : Value} (name : String) (hv : (lib.inside Definition.foldl.params
      [.closure c.id, a, l]).lookup name = some v) :
      m.image.store.Holds (c.elementAt lib F rest).waiting v := fun r hr =>
    (hfold.active.holds hg.sound name hv r hr).mono fun r hr => .root (Place.operand_above.held hr)
  have hroots : (c.elementAt lib F rest).waiting ⊆ m.roots (.apply (.closure c.id)) := fun r hr =>
    hm.mem_roots (List.mem_cons_of_mem _ hr)
  exact ⟨L, hm', hfold.leaves hg.sound ha.toLeaves, hframed, hrow.keeps (hholds "xs" rfl) ha.keeps,
    Holding.lasting hu done log hj hg (fun r hr => hroots (foldAt_subset_elementAt hr))
      (fun r hr => .root (foldAt_subset_elementAt hr)) (hholds "f" rfl) (hholds "acc" rfl)
        ha.toLeaves⟩

end Inside

-- What the closure does with an element: it calls the procedure once, and what it takes from that
-- call is put in front of the accumulator.
def Takes (lib : Library) (c : Traversal) (level need : Nat) (ws : List Value)
    (s : Step × Machine) :
    Prop :=
  ∀ ⦃F L a x l rest ids vs done log m⦄, c.Inside lib F L a x l rest ids vs done log m →
    m.Going .eval →
    m.ToEval lib c.body { c.elementAt lib F rest with env := L } →
    Calling c.f level c.place.slots s log (.eval, m) → ws[log.length]? = some x →
    24 ≤ m.image.store.room → ∃ y z m',
      Calling c.f level c.place.slots s (log ++ [⟨[x], y⟩]) (.evalOperand, m') ∧
      m'.Going .evalOperand ∧ m'.With z (c.elementAt lib F rest) ∧
      c.Inside lib F L a x l rest ids vs done log m' ∧
      min need m.image.store.room ≤ m'.image.store.room + 4 ∧
      ∀ {is us}, m'.image.store.Row a is us .nil →
        ∃ is', m'.image.store.Row z is' ((c.out ⟨[x], y⟩).toList ++ us) .nil

theorem Takes.advances (ht : c.Takes lib level need ws s)
    (hu : ∃ u, (c.bindings lib).lookup u = some c.f)
    (hl : c.place.slots.length + 13 ≠ level) (hn : spare + 32 * (ws.length + 1) ≤ need) :
    Advances lib (c.foldAt lib) (.closure c.id) c.f level c.place.slots s spare ws
      (c.Holding lib) := by
  intro a x l rest i ids vs done log m F q hpre hg hfold hm hrow hj hw hroom
  obtain ⟨m₁, hs₁, ha₁, hg₁, L, hm₁, hi₁⟩ := Inside.enter (h := 0) hfold hj hu hrow hg hm hl
  have hslots : c.place.slots <:+ (c.elementAt lib F rest).slots := suffix_elementAt
  have hroom₁ := ha₁.room
  obtain ⟨y, z, m', hrun, hg', hm', hi', hroom', hz⟩ :=
    ht hi₁ hg₁ hm₁ (hpre.stretch (hs₁.mono hslots))
    (getElem?_of_split hw hj.length_eq) (by omega)
  have ⟨is, hacc⟩ := hi'.holding.exists_row
  have ⟨is', hz⟩ := hz hacc
  have hlen := congrArg List.length hw
  rw [List.length_append, List.length_cons] at hlen
  refine ⟨z, _, m', hrun, hg', hi'.folding, hm', hi'.row, ⟨hi'.holding.active, hi'.holding.closes,
    hi'.holding.ordinary, hi'.holding.kept, by simp [hi'.holding.args], is', ?_⟩, by omega⟩
  have hout : (List.filterMap c.out [⟨[x], y⟩]).reverse = (c.out ⟨[x], y⟩).toList := by
    cases ho : c.out ⟨[x], y⟩ <;> simp [ho]
  rwa [List.filterMap_append, List.reverse_append, hout]

section

variable {df : Definition} {out : Call → Option Value}

-- A definition of this kind, and the names that it uses.
structure Shape (lib : Library) (df : Definition) (d : Datum) (f xs : Value) : Prop where
  mem : df ∈ Definition.all
  body : df.body = .call "reverse" [.call "foldl" [.lambda ["acc", "x"] d, .nil, .symbol "xs"]]
  length : df.params.length = 2
  reverse : (lib.inside df.params [f, xs]).lookup "reverse" = some (lib.value .reverse)
  foldl : (lib.inside df.params [f, xs]).lookup "foldl" = some (lib.value .foldl)
  lambda : (lib.inside df.params [f, xs]).lookup "lambda" = some Builtin.lambda.value
  list : (lib.inside df.params [f, xs]).lookup "xs" = some xs
  exists_f : ∃ u, (lib.inside df.params [f, xs]).lookup u = some f

-- The closure is made, and the fold begins.
theorem Shape.enter (hs : Shape lib df d f xs) (hl : lib.Loaded m)
    (hg : m.Going (.apply (lib.value df))) (hm : m.ToApply [f, xs] p)
    (ho : Ordinary m.image.store f)
    (hrow : m.image.store.Row xs ids vs .nil)
    (hr : spare + 32 * (vs.length + 1) + 3 ≤ m.image.store.room) (hh : p.slots.length + 16 ≤ h)
    (hv : ∀ i ∈ [0, 12], p.slots.length + i ≠ level) :
    Passes level (p.waiting ++ [f, xs].flatMap Value.refs) p.slots 3 h (.apply (lib.value df)) m
      (.apply (lib.value .foldl)) fun m' =>
      ∃ e id, let q : Place := { p with env := e }
        Turning lib (q.operand (lib.value .reverse) [] .nil) (.closure id) .nil xs ids vs spare m' ∧
        lib.Active df.params [f, xs] q m' ∧ Ordinary m'.image.store f ∧
        m'.image.store.Closes lib id ["acc", "x"] d e (lib.inside df.params [f, xs]) := by
  refine (hl.enter hs.mem hg hm hs.length (hv 0 (by decide))).frame.bind 3 (fun m₁ _ hg₁ hm₁ => ?_)
    (Nat.le_refl _)
  obtain ⟨⟨e, hm₁, hact₁⟩, ha₁⟩ := hm₁
  rw [hs.body] at hm₁
  let q₁ : Place := { p with env := e }
  have hrow₁ := hrow.keeps (holds_argument p [f, xs] (by simp)) ha₁.keeps
  have ho₁ := ho.keeps (holds_argument p [f, xs] (by simp)) ha₁.keeps
  have hroom₁ := ha₁.room
  have hq₁ : q₁.slots.length = p.slots.length := rfl
  refine Passes.mono (c := 3) (h := h) ?_ (List.suffix_refl _)
    (hact₁.refers hg₁.sound (nodup_params hs.mem) hs.length) (Nat.le_refl _) (Nat.le_refl _)
  refine (hm₁.operand (p := q₁) [] [] hg₁ rfl hact₁.scope hs.reverse
    (hact₁.loaded.ordinary (by simp [Definition.all])) .nil (by simp; omega)).bind 3
    (fun m₂ ha₂ hg₂ hm₂ => ?_) (Nat.le_refl _)
  obtain ⟨rest, hrest, hm₂⟩ := hm₂
  cases hrest
  obtain ⟨u, hu⟩ := hs.exists_f
  have hact₂ := hact₁.allocates ha₂ hg₁.sound
  have hrow₂ := hrow₁.keeps (hact₁.holds hg₁.sound "xs" hs.list) ha₂.keeps
  have ho₂ := ho₁.keeps (hact₁.holds hg₁.sound u hu) ha₂.keeps
  have hroom₂ := ha₂.room
  let q := q₁.operand (lib.value .reverse) [] .nil
  have hq : q.slots.length = p.slots.length + 6 := Place.length_operand
  have hactq : lib.Active df.params [f, xs] q m₂ :=
    ⟨hact₂.loaded, hact₂.global, hact₂.known, hact₂.framed⟩
  obtain ⟨m₃, hs₃, ha₃, hg₃, id, hm₃, hc₃⟩ :=
    hm₂.fold (p := q) (h := h) hg₂ hactq hs.foldl hs.lambda rfl
    hs.list (by omega) (by omega) (by rw [hq]; exact hv 12 (by decide))
  have hact₃ := hactq.allocates ha₃ hg₂.sound
  have hroom₃ := ha₃.room
  refine ⟨m₃, hs₃.mono Place.operand_above.slots,
    ha₃.mono (fun r hr => .root (Place.waiting_subset_held
    (Place.operand_above.held hr))) (Nat.le_refl _) (Nat.le_refl _), hg₃, e, id,
    ⟨hg₃, hact₃.loaded, ⟨q.env, hm₃⟩, hc₃.ordinary,
      hrow₂.keeps (hactq.holds hg₂.sound "xs" hs.list) ha₃.keeps, by omega⟩,
    ⟨hact₃.loaded, hact₃.global, hact₃.known, hact₃.framed⟩,
    ho₂.keeps (hactq.holds hg₂.sound u hu) ha₃.keeps, hc₃⟩

-- The fold has come to the end, and what it has collected is turned round.
theorem Holding.leave (hj : c.Holding lib done log a m) (hg : m.Going .evalOperand)
    (hm : m.With a (c.foldAt lib)) (hr : 32 * (log.length + 2) + 1 ≤ m.image.store.room)
    (hv : ∀ i ∈ [0, 4, 6, 7, 8, 14], c.place.slots.length + i ≠ level) :
    Computes level c.place.waiting c.place.slots (c.place.slots.length + 19) 0 .evalOperand m
      c.place.cont
      fun m' => lib.Loaded m' ∧ ∃ r, m'.With r c.place ∧
        m'.image.store.Fresh c.place.waiting r (log.filterMap c.out) .nil := by
  have ⟨ids, hrow⟩ := hj.exists_row
  have hlen := List.length_filterMap_le c.out log
  have hnil : m.image.store.Spells lib .nil (.list [] .nil) := .nil
  have hroots : c.place.held ++ a.refs ⊆ m.roots .evalOperand :=
    List.append_subset.mpr
      ⟨fun _ hr => hm.mem_roots rfl (held_subset_foldAt hr), hm.val_subset_roots⟩
  refine (With.apply (p := c.place) [] hg hm hroots hnil hj.active.scope .nil (by simp; omega)
    (by simp)).computes
      (fun r hr => .root (List.mem_append_left _ (Place.waiting_subset_held hr))) ?_
  intro m₁ ha₁ hg₁ hm₁
  have hl₁ := (hj.active.leaves ha₁.toLeaves hg.sound fun r hr =>
    .root (List.mem_append_left _ hr)).loaded
  have hrow₁ := hrow.keeps (Store.holds_of_subset (List.subset_append_right _ _)) ha₁.keeps
  have hroom₁ := ha₁.room
  have hr₁ : 0 + 32 * ((log.filterMap c.out).reverse.length + 2) ≤ m₁.image.store.room := by
    simp at hroom₁ ⊢
    omega
  have hv₁ : c.place.Clear level := fun i hi => hv i (by simp at hi ⊢; omega)
  have hrev := hl₁.reverse hg₁ hm₁ hrow₁ hr₁ (Nat.le_refl _) hv₁ fun i hi =>
    hv i (by simp at hi ⊢; omega)
  rwa [List.reverse_reverse] at hrev

-- From the call of the procedure to its value.
theorem Shape.traverse (hs : Shape lib df d f xs) (hl : lib.Loaded m)
    (hg : m.Going (.apply (lib.value df))) (hm : m.ToApply [f, xs] p)
    (ho : Ordinary m.image.store f)
    (hrow : m.image.store.Row xs ids vs .nil) (hk : ∀ r ∈ kept, m.image.store.Refers p.waiting r)
    (hr : need ≤ m.image.store.room) (hn : 64 * (vs.length + 3) ≤ need)
    (hv : ∀ i ∈ [0, 4, 6, 7, 8, 10, 12, 13, 14, 20], p.slots.length + i ≠ level)
    (ht : ∀ e id, Takes lib ⟨df.params, d, out, f, xs, { p with env := e }, id, kept, m⟩
      level need vs
      (.apply (lib.value df), m)) : ∃ r log m',
      Calling f level p.slots (.apply (lib.value df), m) log (p.cont, m') ∧ m'.Going p.cont ∧
      lib.Loaded m' ∧ m'.With r p ∧ log.map Call.args = vs.map ([·]) ∧
      m'.image.store.Fresh p.waiting r (log.filterMap out) .nil ∧ Remains p kept m m' := by
  have hr₀ : 32 * (vs.length + 2) + 1 + 32 * (vs.length + 1) + 3 ≤ m.image.store.room := by omega
  obtain ⟨m₁, hs₁, ha₁, hg₁, e, id, hturn, hact, ho₁, hc₁⟩ :=
    hs.enter (h := p.slots.length + 25) hl hg hm ho
    hrow hr₀ (by omega) fun i hi => hv i (by simp at hi ⊢; omega)
  let c : Traversal := ⟨df.params, d, out, f, xs, { p with env := e }, id, kept, m⟩
  have hkept : Remains p kept m m₁ := Remains.leaves (fun r hr => ⟨hk r hr, rfl⟩) hg
    (fun r hr => hm.mem_roots (List.mem_cons_of_mem _ hr))
    (fun r hr => .root (List.mem_append_left _ hr)) ha₁.toLeaves
  have hj₁ : c.Holding lib [] [] .nil m₁ := ⟨hact, hc₁, ho₁, hkept, rfl, [], .nil⟩
  have hq : (c.foldAt lib).slots.length = p.slots.length + 6 := Place.length_operand
  have hclear : (c.foldAt lib).Clear level := fun i hi => by
    rw [hq, Nat.add_assoc]
    exact hv _ (by simp at hi ⊢; omega)
  obtain ⟨a, log, m₂, hrun₂, hg₂, hm₂, -, hroom₂, hj₂⟩ := hturn.runs (h := p.slots.length + 25)
    (Holding.lasting (c := c) hs.exists_f)
      ((ht e id).advances hs.exists_f (hv 13 (by decide)) (by omega))
    (Place.operand_above : (c.foldAt lib).Above c.place).slots
    (Nat.le_of_eq (congrArg (· + 19) hq)) hclear
    (.quiet hs₁)
    hj₁ (List.nil_append vs)
  have hlen := hj₂.length_eq
  obtain ⟨m₃, hs₃, hl₃, hg₃, -, hload, r, hm₃, hfresh⟩ := hj₂.leave hg₂ hm₂ (by omega)
    fun i hi => hv i (by simp at hi ⊢; omega)
  have hroots : p.waiting ⊆ m₂.roots .evalOperand := fun r hr =>
    hm₂.mem_roots rfl (held_subset_foldAt (c := c) (List.mem_cons_of_mem _ hr))
  exact ⟨r, log, m₃, hrun₂.stretch hs₃, hg₃, hload, ⟨hm₃.global, hm₃.val, hm₃.slots⟩,
    hj₂.args, hfresh,
    hj₂.kept.leaves hg₂ hroots (fun _ => .root) hl₃⟩

end

-- Mapping

def mapping (f xs : Value) (p : Place) (id : ClosureId) (kept : List Ref) (m : Machine) :
    Traversal where
  params := Definition.map.params
  body := .call "cons" [.call "f" [.symbol "x"], .symbol "acc"]
  out := fun c => some c.value
  f := f
  xs := xs
  place := p
  id := id
  kept := kept
  start := m

theorem mapping_calls (hi : (mapping f xs p id kept m₀).Inside lib F L a x l rest ids vs done log m)
    (hg : m.Going .eval) (hm : m.ToEval lib (mapping f xs p id kept m₀).body
      ((mapping f xs p id kept m₀).insideAt lib F L rest)) (hr : 1 ≤ m.image.store.room)
    (hh : p.slots.length + 24 ≤ h) :
    let q := (mapping f xs p id kept m₀).insideAt lib F L rest
    Passes level q.held q.slots 1 h .eval m (.apply f) fun m' => ∃ r,
      m'.ToApply [x] (q.operand Builtin.cons.value [] r) ∧
      m'.image.store.Spells lib r (.list [.symbol "acc"] .nil) ∧
      (mapping f xs p id kept m₀).Inside lib F L a x l rest ids vs done log m' := by
  intro q
  have hu : ∃ u, ((mapping f xs p id kept m₀).bindings lib).lookup u = some f := ⟨"f", rfl⟩
  have hq : q.slots.length = p.slots.length + 13 := rfl
  refine (hm.operand (p := q) [] [] hg rfl hi.scope rfl (ordinary_value rfl) .nil
    (by simp; omega)).bind 1
    (fun m₁ ha₁ hg₁ hm₁ => ?_) (Nat.le_refl _)
  obtain ⟨r, hr₁, hm₁⟩ := hm₁
  have hi₁ := hi.leaves hg hu (fun r hr => hm.mem_roots (List.mem_cons_of_mem _ hr))
    (fun _ => .root) ha₁.toLeaves
  have hroom₁ := ha₁.room
  let t := q.operand Builtin.cons.value [] r
  have hup : q.held ⊆ t.held := fun r hr => Place.waiting_subset_held (Place.operand_above.held hr)
  have ht : t.slots.length = q.slots.length + 6 := Place.length_operand
  have hslot : r.refs ⊆ t.held := fun _ hr => Place.waiting_subset_held <|
    Place.refs_subset_waiting (v := r) (by simp [t, Place.operand]) hr
  refine ((hm₁.call (p := t) [x] hg₁ hi₁.scope (x := "f") rfl hi₁.holding.ordinary (.cons rfl .nil)
    (by simp; omega) (by simp; omega)).frame.below Place.operand_above).imp ?_
  rintro m₂ ⟨hm₂, ha₂⟩
  exact ⟨r, hm₂, hr₁.keeps (Store.holds_of_subset hslot) ha₂.keeps, hi₁.leaves hg₁ hu
    (fun r hr => hm₁.mem_roots (hup (List.mem_cons_of_mem _ hr))) (fun _ hr => .root (hup hr))
      ha₂.toLeaves⟩

theorem mapping_puts {r : Value}
    (hi : (mapping f xs p id kept m₀).Inside lib F L a x l rest ids vs done log m)
    (hg : m.Going .evalOperand)
    (hm : m.With y (((mapping f xs p id kept m₀).insideAt lib F L rest).operand
      Builtin.cons.value [] r)) (hs : m.image.store.Spells lib r (.list [.symbol "acc"] .nil))
    (hr : 3 ≤ m.image.store.room) (hh : p.slots.length + 24 ≤ h)
    (hv : p.slots.length + 13 ≠ level) :
    let q := (mapping f xs p id kept m₀).insideAt lib F L rest
    Passes level q.held q.slots 3 h .evalOperand m .evalOperand fun m' => ∃ i,
      m'.With (.pair i) ((mapping f xs p id kept m₀).elementAt lib F rest) ∧
      m'.image.store.object? i.ref = some (.cell ⟨y, a⟩) ∧
      (mapping f xs p id kept m₀).Inside lib F L a x l rest ids vs done log m' := by
  intro q
  have hu : ∃ u, ((mapping f xs p id kept m₀).bindings lib).lookup u = some f := ⟨"f", rfl⟩
  have hq : q.slots.length = p.slots.length + 13 := rfl
  refine (hm.apply (p := q) [a] hg hm.held_subset_roots hs hi.scope (.cons rfl .nil)
    (by simp; omega)
    (by simp; omega)).bind 1 (fun m₁ ha₁ hg₁ hm₁ => ?_) (Nat.le_refl _)
  have hi₁ := hi.leaves hg hu (fun r hr => hm.held_subset_roots (List.mem_cons_of_mem _ hr))
    (fun _ => .root) ha₁.toLeaves
  have hroom₁ := ha₁.room
  refine (hm₁.cons (p := q) hg₁ hv (by simp at hroom₁; omega)).frame.imp ?_
  rintro m₂ ⟨⟨i, hm₂, ho, -⟩, ha₂⟩
  exact ⟨i, ⟨hm₂.global, hm₂.val, hm₂.slots⟩, ho, hi₁.leaves hg₁ hu
    (fun r hr => hm₁.mem_roots (List.mem_cons_of_mem _ hr)) (fun _ => .root) ha₂.toLeaves⟩

theorem mapping_takes
    (hf : lib.Considerate ["xs", "acc"] p kept f need (p.slots.length + 19) 1 ws s)
    (hn : 3 ≤ need) : (mapping f xs p id kept m₀).Takes lib (p.slots.length + 19) need ws s := by
  intro F L a x l rest ids vs done log m hi hg hm hc hx hr
  have hp : p.slots <:+ ((mapping f xs p id kept m₀).insideAt lib F L rest).slots :=
    suffix_elementAt (c := mapping f xs p id kept m₀)
  obtain ⟨m₁, hs₁, ha₁, hg₁, r, hm₁, hr₁, hi₁⟩ := mapping_calls hi hg hm (by omega) (Nat.le_refl _)
  have hroom₁ := ha₁.room
  obtain ⟨y, m₂, hc₂, hg₂, hm₂, hi₂, hroom₂, hspells⟩ := hi₁.call [.env L, .value r, .sentinel,
    .callee (.proc Builtin.cons.value), .env L, .step .evalOperand] hf
      (hc.stretch (hs₁.mono hp)) hg₁ hm₁
    rfl (by simp) Place.length_operand hx
  have hv : p.slots.length + 13 ≠ p.slots.length + 19 := by omega
  obtain ⟨m₃, hs₃, ha₃, hg₃, i, hm₃, ho, hi₃⟩ := mapping_puts hi₂ hg₂ hm₂ (hspells (by simp) hr₁)
    (by omega) (Nat.le_refl _) hv
  have hroom₃ := ha₃.room
  exact ⟨y, .pair i, m₃, hc₂.stretch (hs₃.mono hp), hg₃, hm₃, hi₃, by omega,
    fun hrow => ⟨_, .cons ho hrow⟩⟩

-- Filtering

def filtering (f xs : Value) (p : Place) (id : ClosureId) (kept : List Ref) (m : Machine) :
    Traversal where
  params := Definition.filter.params
  body := .call "if" [.call "keep?" [.symbol "x"], .call "cons" [.symbol "x", .symbol "acc"],
    .symbol "acc"]
  out := fun c => if c.value.isNil then none else c.args.head?
  f := f
  xs := xs
  place := p
  id := id
  kept := kept
  start := m

theorem filtering_calls
    (hi : (filtering f xs p id kept m₀).Inside lib F L a x l rest ids vs done log m)
    (hg : m.Going .eval) (hm : m.ToEval lib (filtering f xs p id kept m₀).body
      ((filtering f xs p id kept m₀).insideAt lib F L rest)) (hr : 1 ≤ m.image.store.room)
    (hh : p.slots.length + 24 ≤ h) (hv : p.slots.length + 13 ≠ level) :
    let q := (filtering f xs p id kept m₀).insideAt lib F L rest
    Passes level q.held q.slots 1 h .eval m (.apply f) fun m' => ∃ v w,
      m'.ToApply [x] (q.test v w) ∧
      m'.image.store.Spells lib v (.call "cons" [.symbol "x", .symbol "acc"]) ∧
      m'.image.store.Spells lib w (.symbol "acc") ∧
      (filtering f xs p id kept m₀).Inside lib F L a x l rest ids vs done log m' := by
  intro q
  have hu : ∃ u, ((filtering f xs p id kept m₀).bindings lib).lookup u = some f := ⟨"keep?", rfl⟩
  have hq : q.slots.length = p.slots.length + 13 := rfl
  refine (hm.conditional (p := q) hg hi.scope rfl (by omega) hv).bind 1 (fun m₁ ha₁ hg₁ hm₁ => ?_)
    (Nat.le_refl _)
  obtain ⟨v, w, hv₁, hw₁, hm₁⟩ := hm₁
  have hi₁ := hi.leaves hg hu (fun r hr => hm.mem_roots (List.mem_cons_of_mem _ hr))
    (fun _ => .root) ha₁.toLeaves
  have hroom₁ := ha₁.room
  let t := q.test v w
  have hup : q.held ⊆ t.held := fun r hr => Place.waiting_subset_held (Place.test_above.held hr)
  have ht : t.slots.length = q.slots.length + 4 := rfl
  have hslot {u : Value} (hu : .value u ∈ t.slots) : m₁.image.store.Holds t.held u :=
    Store.holds_of_subset fun _ hr => Place.waiting_subset_held (Place.refs_subset_waiting hu hr)
  refine ((hm₁.call (p := t) [x] hg₁ hi₁.scope (x := "keep?") rfl hi₁.holding.ordinary
    (.cons rfl .nil)
    (by simp; omega) (by simp; omega)).frame.below Place.test_above).imp ?_
  rintro m₂ ⟨hm₂, ha₂⟩
  exact ⟨v, w, hm₂, hv₁.keeps (hslot (by simp [t, Place.test])) ha₂.keeps,
    hw₁.keeps (hslot (by simp [t, Place.test])) ha₂.keeps, hi₁.leaves hg₁ hu
    (fun r hr => hm₁.mem_roots (hup (List.mem_cons_of_mem _ hr))) (fun _ hr => .root (hup hr))
      ha₂.toLeaves⟩

theorem filtering_puts {v w : Value}
    (hi : (filtering f xs p id kept m₀).Inside lib F L a x l rest ids vs done log m)
    (hg : m.Going .ifBranch)
    (hm : m.With y (((filtering f xs p id kept m₀).insideAt lib F L rest).test v w))
    (hv : m.image.store.Spells lib v (.call "cons" [.symbol "x", .symbol "acc"]))
    (hw : m.image.store.Spells lib w (.symbol "acc"))
    (hr : 3 ≤ m.image.store.room) (hh : p.slots.length + 24 ≤ h)
    (hl : p.slots.length + 13 ≠ level) :
    let q := (filtering f xs p id kept m₀).insideAt lib F L rest
    Passes level q.held q.slots 3 h .ifBranch m .evalOperand fun m' => ∃ z,
      m'.With z ((filtering f xs p id kept m₀).elementAt lib F rest) ∧
      (filtering f xs p id kept m₀).Inside lib F L a x l rest ids vs done log m' ∧
      ∀ {is us}, m'.image.store.Row a is us .nil → ∃ is',
        m'.image.store.Row z is' (((filtering f xs p id kept m₀).out ⟨[x], y⟩).toList ++ us)
          .nil := by
  intro q
  have hu : ∃ u, ((filtering f xs p id kept m₀).bindings lib).lookup u = some f := ⟨"keep?", rfl⟩
  have hq : q.slots.length = p.slots.length + 13 := rfl
  refine (hm.branch (p := q) hg hv hw).bind 3 (fun m₁ ha₁ hg₁ hm₁ => ?_) (Nat.le_refl _)
  have hi₁ := hi.leaves hg hu
    (fun r hr => hm.mem_roots rfl (Place.test_above.held (List.mem_cons_of_mem _ hr)))
    (fun _ => .root) ha₁.toLeaves
  have hroom₁ := ha₁.room
  have hroots {next : Step} : q.waiting ⊆ m₁.roots next := fun r hr =>
    hm₁.mem_roots (List.mem_cons_of_mem _ hr)
  cases hy : y.isNil <;> rw [hy] at hm₁
  case true =>
    refine ((hm₁.value (p := q) (v := a) hg₁ hi₁.scope rfl).frame.mono (List.suffix_refl _)
      (fun _ => .root)
      (Nat.zero_le _) (Nat.le_refl h)).imp ?_
    rintro m₂ ⟨hm₂, ha₂⟩
    refine ⟨a, ⟨hm₂.global, hm₂.val, hm₂.slots⟩,
      hi₁.leaves hg₁ hu hroots (fun _ => .root) ha₂.toLeaves,
      fun {is} _ hrow => ⟨is, ?_⟩⟩
    simpa [filtering, hy] using hrow
  case false =>
    refine (hm₁.call (p := q) [x, a] hg₁ hi₁.scope (x := "cons") rfl (ordinary_value rfl)
      (.cons rfl (.cons rfl .nil)) (by simp; omega) (by simp; omega)).bind 1
        (fun m₂ ha₂ hg₂ hm₂ => ?_)
      (Nat.le_refl _)
    have hi₂ := hi₁.leaves hg₁ hu hroots (fun _ => .root) ha₂.toLeaves
    have hroom₂ := ha₂.room
    refine (hm₂.cons (p := q) hg₂ hl (by simp at hroom₂; omega)).frame.imp ?_
    rintro m₃ ⟨⟨i, hm₃, ho, -⟩, ha₃⟩
    refine ⟨.pair i, ⟨hm₃.global, hm₃.val, hm₃.slots⟩, hi₂.leaves hg₂ hu
      (fun r hr => hm₂.mem_roots (List.mem_cons_of_mem _ hr)) (fun _ => .root) ha₃.toLeaves,
      fun {is} _ hrow => ⟨i :: is, ?_⟩⟩
    simpa [filtering, hy] using hrow.cons ho

theorem filtering_takes
    (hf : lib.Considerate ["xs", "acc"] p kept f need (p.slots.length + 17) 1 ws s)
    (hn : 3 ≤ need) : (filtering f xs p id kept m₀).Takes lib (p.slots.length + 17) need ws s := by
  intro F L a x l rest ids vs done log m hi hg hm hc hx hr
  have hp : p.slots <:+ ((filtering f xs p id kept m₀).insideAt lib F L rest).slots :=
    suffix_elementAt (c := filtering f xs p id kept m₀)
  have hv : p.slots.length + 13 ≠ p.slots.length + 17 := by omega
  obtain ⟨m₁, hs₁, ha₁, hg₁, v, w, hm₁, hv₁, hw₁, hi₁⟩ :=
    filtering_calls hi hg hm (by omega) (Nat.le_refl _) hv
  have hroom₁ := ha₁.room
  obtain ⟨y, m₂, hc₂, hg₂, hm₂, hi₂, hroom₂, hspells⟩ := hi₁.call [.value w, .value v, .env L,
    .step .evalOperand] hf (hc.stretch (hs₁.mono hp)) hg₁ hm₁ rfl (by simp) rfl hx
  obtain ⟨m₃, hs₃, ha₃, hg₃, z, hm₃, hi₃, hz⟩ := filtering_puts hi₂ hg₂ hm₂ (hspells (by simp) hv₁)
    (hspells (by simp) hw₁) (by omega) (Nat.le_refl _) hv
  have hroom₃ := ha₃.room
  exact ⟨y, z, m₃, hc₂.stretch (hs₃.mono hp), hg₃, hm₃, hi₃, by omega, hz⟩

end Traversal

namespace Library.Loaded

variable (hl : lib.Loaded m) (hm : m.ToApply [f, l] p) (ho : Ordinary m.image.store f)
variable (hrow : m.image.store.Row l ids vs .nil) (hr : need ≤ m.image.store.room)
variable (hn : 64 * (vs.length + 3) ≤ need) (hk : ∀ r ∈ kept, m.image.store.Refers p.waiting r)
include hl hm ho hrow hr hn hk

theorem map (hg : m.Going (.apply (lib.value .map)))
    (hf : lib.Considerate ["xs", "acc"] p kept f need
      (p.slots.length + 19) 1 vs (.apply (lib.value .map), m)) : ∃ r log m',
      Calling f (p.slots.length + 19) p.slots (.apply (lib.value .map), m) log (p.cont, m') ∧
      m'.Going p.cont ∧ lib.Loaded m' ∧ m'.With r p ∧ log.map Call.args = vs.map ([·]) ∧
      m'.image.store.Fresh p.waiting r (log.filterMap fun c => some c.value) .nil ∧
        Remains p kept m m' := by
  have hs : Traversal.Shape lib .map (.call "cons" [.call "f" [.symbol "x"], .symbol "acc"]) f l :=
    ⟨by simp [Definition.all], rfl, rfl, rfl, rfl, rfl, rfl, "f", rfl⟩
  exact hs.traverse hl hg hm ho hrow hk hr hn (fun i hi => by simp at hi; omega) fun e id =>
    Traversal.mapping_takes (hf.inside e) (by omega)

theorem filter (hg : m.Going (.apply (lib.value .filter)))
    (hf : lib.Considerate ["xs", "acc"] p kept f need
      (p.slots.length + 17) 1 vs (.apply (lib.value .filter), m)) : ∃ r log m',
      Calling f (p.slots.length + 17) p.slots (.apply (lib.value .filter), m) log (p.cont, m') ∧
      m'.Going p.cont ∧ lib.Loaded m' ∧ m'.With r p ∧ log.map Call.args = vs.map ([·]) ∧
      m'.image.store.Fresh p.waiting r
        (log.filterMap fun c => if c.value.isNil then none else c.args.head?) .nil ∧
          Remains p kept m m' := by
  have hs : Traversal.Shape lib .filter (.call "if" [.call "keep?" [.symbol "x"],
      .call "cons" [.symbol "x", .symbol "acc"], .symbol "acc"]) f l :=
    ⟨by simp [Definition.all], rfl, rfl, rfl, rfl, rfl, rfl, "keep?", rfl⟩
  exact hs.traverse hl hg hm ho hrow hk hr hn (fun i hi => by simp at hi; omega) fun e id =>
    Traversal.filtering_takes (hf.inside e) (by omega)

end Library.Loaded

end StepLisp
