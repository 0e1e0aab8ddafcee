import StepLisp.Proofs.Prelude.Calls

namespace StepLisp

open Machine

variable {lib : Library} {m m' : Machine} {p q : Place} {f a l x y rest : Value} {e : FrameId}
variable {id : PairId} {held : List Ref} {c h level : Nat}

-- A level at which a fold applies no procedure of its own.
def Place.Clear (p : Place) (level : Nat) : Prop :=
  ∀ i ∈ [0, 4, 8, 14], p.slots.length + i ≠ level

namespace Library

-- Where a fold calls its procedure and waits for the value.
def foldPlace (lib : Library) (p : Place) (f rest : Value) : Place :=
  p.operand (lib.value .foldl) [f] rest

theorem length_foldPlace (lib : Library) (p : Place) (f rest : Value) :
    (lib.foldPlace p f rest).slots.length = p.slots.length + 7 :=
  Place.length_operand

-- A fold that waits there.
structure Folding (lib : Library) (p : Place) (f a l rest : Value) (m : Machine) : Prop where
  active : lib.Active Definition.foldl.params [f, a, l] p m
  rest : m.image.store.Spells lib rest (.list [.call "cdr" [.symbol "xs"]] .nil)
  ordinary : Ordinary m.image.store f

theorem Folding.leaves (hf : lib.Folding p f a l rest m) (hs : m.image.store.Sound)
    (hm : Leaves (lib.foldPlace p f rest).waiting h m m') : lib.Folding p f a l rest m' where
  active := hf.active.leaves hm hs fun _ hr => .root (Place.operand_above.held hr)
  rest := by
    refine hf.rest.keeps (Store.holds_of_subset (Place.refs_subset_waiting ?_)) hm.keeps
    simp [foldPlace, Place.operand]
  ordinary := by
    refine hf.ordinary.keeps (Store.holds_of_subset (Place.refs_subset_waiting ?_)) hm.keeps
    simp [foldPlace, Place.operand, Place.gathered, Slot.values]

end Library

namespace Machine

-- The list has been tested.
theorem foldl_enter (hl : lib.Loaded m) (hg : m.Going (.apply (lib.value .foldl)))
    (hm : m.ToApply [f, a, l] p) (hr : 1 ≤ m.image.store.room) (hh : p.slots.length + 9 ≤ h)
    (hv : p.Clear level) :
    Passes level (p.waiting ++ [f, a, l].flatMap Value.refs) p.slots 1 h
      (.apply (lib.value .foldl)) m .eval
      fun m' => ∃ e, m'.ToEval lib (if l.isNil then .symbol "acc" else .call "foldl" [.symbol "f",
          .call "f" [.symbol "acc", .call "car" [.symbol "xs"]], .call "cdr" [.symbol "xs"]])
          { p with env := e } ∧
        lib.Active Definition.foldl.params [f, a, l] { p with env := e } m' := by
  refine (hl.enter (d := .foldl) List.mem_cons_self hg hm rfl (hv 0 (by decide))).bind 1
    (fun m₁ ha₁ hg₁ hm₁ => ?_)
    (Nat.le_refl _)
  obtain ⟨e, hm₁, hact₁⟩ := hm₁
  have hroom := ha₁.room
  have ht := (hm₁.ifNull (v := l) hg₁ hact₁.scope rfl rfl rfl (by omega) hh (hv 0 (by decide))
    (hv 4 (by decide))).frame
  refine (ht.mono (List.suffix_refl _) (hact₁.refers hg₁.sound (by decide) rfl) (Nat.le_refl _)
    (Nat.le_refl _)).imp ?_
  rintro m₂ ⟨hm₂, ha₂⟩
  exact ⟨e, hm₂, hact₁.allocates ha₂ hg₁.sound⟩

-- There is nothing left: the accumulator is the value.
theorem foldl_done (hl : lib.Loaded m) (hg : m.Going (.apply (lib.value .foldl)))
    (hm : m.ToApply [f, a, .nil] p) (hr : 1 ≤ m.image.store.room) (hh : p.slots.length + 9 ≤ h)
    (hv : p.Clear level) :
    Passes level (p.waiting ++ [f, a, .nil].flatMap Value.refs) p.slots 1 h
      (.apply (lib.value .foldl)) m
      p.cont fun m' => m'.With a p ∧ lib.Loaded m' := by
  refine (foldl_enter hl hg hm hr hh hv).bind 0 (fun m₁ ha₁ hg₁ hm₁ => ?_) (Nat.le_refl _)
  obtain ⟨e, hm₁, hact₁⟩ := hm₁
  refine ((hm₁.value (v := a) hg₁ hact₁.scope rfl).frame.mono (List.suffix_refl _)
    (hact₁.refers hg₁.sound (by decide) rfl) (Nat.le_refl _) (Nat.le_refl h)).imp ?_
  rintro m₂ ⟨hm₂, ha₂⟩
  exact ⟨⟨hm₂.global, hm₂.val, hm₂.slots⟩, (hact₁.allocates ha₂ hg₁.sound).loaded⟩

-- A call on a value and the first element of a list.
theorem ToEval.callCar {ρ : Bindings} {cell : Cell} {u v w : String} (hg : m.Going .eval)
    (hm : m.ToEval lib (.call u [.symbol v, .call "car" [.symbol w]]) p)
    (hsc : m.image.store.Scope lib p.env ρ) (hu : ρ.lookup u = some f)
    (hf : Ordinary m.image.store f) (hv : ρ.lookup v = some a)
    (hb : ρ.lookup "car" = some Builtin.car.value) (hw : ρ.lookup w = some (.pair id))
    (ho : m.image.store.object? id.ref = some (.cell cell)) (hr : 3 ≤ m.image.store.room)
    (hh : p.slots.length + 12 ≤ h) (hl : p.slots.length + 7 ≠ level) :
    Passes level p.held p.slots 3 h .eval m (.apply f) (ToApply [a, cell.car] p) := by
  refine (hm.operand [.symbol v] [a] hg rfl hsc hu hf (.cons hv .nil) (by simp; omega)).bind 3
    (fun m₁ ha₁ hg₁ hm₁ => ?_) (Nat.le_refl _)
  obtain ⟨rest, hrest, hm₁⟩ := hm₁
  have hsc₁ := hsc.keeps (.root List.mem_cons_self) ha₁.keeps
  have hroom₁ := ha₁.room
  have hlen : (p.operand f [a] rest).slots.length = p.slots.length + 7 := Place.length_operand
  have hcar := hm₁.car (h := h) hg₁ hsc₁ hb hw (ha₁.object? hg hsc hw ho) (by omega) (by omega)
    (hlen ▸ hl)
  refine (hcar.below Place.operand_above).bind 2 (fun m₂ ha₂ hg₂ hm₂ => ?_) (Nat.le_refl _)
  have hroom₂ := ha₂.room
  cases hrest
  have hrest : m₂.image.store.Spells lib .nil (.list [] .nil) := .nil
  exact hm₂.apply [] hg₂ hm₂.held_subset_roots hrest
    (hsc₁.keeps (.root List.mem_cons_self) ha₂.keeps) .nil
    (by simp; omega) (by simp; omega)

-- The procedure is called on an element.
theorem foldl_step (hl : lib.Loaded m) (hg : m.Going (.apply (lib.value .foldl)))
    (hm : m.ToApply [f, a, .pair id] p) (hf : Ordinary m.image.store f)
    (hc : m.image.store.object? id.ref = some (.cell ⟨x, l⟩)) (hr : 4 ≤ m.image.store.room)
    (hh : p.slots.length + 19 ≤ h) (hv : p.Clear level) :
    Passes level (p.waiting ++ [f, a, .pair id].flatMap Value.refs) p.slots 4 h
      (.apply (lib.value .foldl)) m
      (.apply f) fun m' => ∃ e rest, lib.Folding { p with env := e } f a (.pair id) rest m' ∧
        m'.ToApply [a, x] (lib.foldPlace { p with env := e } f rest) := by
  refine (foldl_enter hl hg hm (by omega) (by omega) hv).bind 3 (fun m₁ ha₁ hg₁ hm₁ => ?_)
    (Nat.le_refl _)
  obtain ⟨e, hm₁, hact₁⟩ := hm₁
  have hf₁ := hf.keeps (Library.holds_argument p [f, a, .pair id] (by simp)) ha₁.keeps
  have hid : m.image.store.Holds _ (.pair id) := Library.holds_argument p [f, a, .pair id] (by simp)
  have hc₁ := ha₁.keeps.object? (hid id.ref List.mem_cons_self) hc
  have hroom₁ := ha₁.room
  refine Passes.mono (c := 3) (h := h) ?_ (List.suffix_refl _)
    (hact₁.refers hg₁.sound (by decide) rfl) (Nat.le_refl _) (Nat.le_refl _)
  refine (ToEval.operand [.symbol "f"] [f] hg₁ hm₁ rfl hact₁.scope rfl
    (hact₁.loaded.ordinary List.mem_cons_self) (.cons rfl .nil) (by simp; omega)).bind 3
    (fun m₂ ha₂ hg₂ hm₂ => ?_) (Nat.le_refl _)
  obtain ⟨rest, hrest, hm₂⟩ := hm₂
  have hact₂ := hact₁.allocates ha₂ hg₁.sound
  have hf₂ := hf₁.keeps (hact₁.holds hg₁.sound "f" rfl) ha₂.keeps
  have hc₂ := ha₂.object? hg₁ hact₁.scope (x := "xs") rfl hc₁
  have hroom₂ := ha₂.room
  have hfold₂ : lib.Folding { p with env := e } f a (.pair id) rest m₂ := ⟨hact₂, hrest, hf₂⟩
  have hlen := lib.length_foldPlace { p with env := e } f rest
  have hh' : (lib.foldPlace { p with env := e } f rest).slots.length + 12 ≤ h := by
    simp only at hlen; omega
  refine (hm₂.callCar (p := lib.foldPlace { p with env := e } f rest) hg₂ hact₂.scope rfl hf₂ rfl
    rfl rfl hc₂
    (by omega) hh' (by rw [hlen]; exact hv 14 (by decide))).frame.below Place.operand_above
      |>.imp ?_
  rintro m₃ ⟨hm₃, ha₃⟩
  have hw := ha₃.toLeaves.mono (fun _ hr => .root (Place.waiting_subset_held hr)) (Nat.le_refl _)
  exact ⟨e, rest, hfold₂.leaves hg₂.sound hw, hm₃⟩

-- The value has come back: the fold goes on with the rest of the list.
theorem foldl_next (hfold : lib.Folding p f a (.pair id) rest m) (hg : m.Going .evalOperand)
    (hm : m.With y (lib.foldPlace p f rest))
    (hc : m.image.store.object? id.ref = some (.cell ⟨x, l⟩)) (hr : 4 ≤ m.image.store.room)
    (hh : p.slots.length + 19 ≤ h) (hv : p.Clear level) :
    Passes level (p.held ++ y.refs) p.slots 4 h .evalOperand m (.apply (lib.value .foldl)) fun m' =>
      lib.Active Definition.foldl.params [f, a, .pair id] p m' ∧ m'.ToApply [f, y, l] p := by
  refine (hm.operand [] [] hg hm.subset_roots hfold.rest rfl hfold.active.scope .nil
    (by simp; omega)).bind 4 (fun m₁ ha₁ hg₁ hm₁ => ?_) (Nat.le_refl _)
  obtain ⟨rest', hrest', hm₁⟩ := hm₁
  cases hrest'
  let q := p.operand (lib.value .foldl) [f, y] .nil
  have hm₁ : m₁.ToEval lib (.call "cdr" [.symbol "xs"]) q := hm₁
  have hp : ∀ r ∈ p.held, m.image.store.Refers (p.held ++ y.refs) r := fun _ hr =>
    .root (List.mem_append_left _ hr)
  have hact₁ := hfold.active.leaves ha₁.toLeaves hg.sound hp
  have hc₁ := (ha₁.mono hp (Nat.le_refl _) (Nat.le_refl _)).object? hg hfold.active.scope
    (x := "xs") rfl hc
  have hroom₁ := ha₁.room
  have hlen : q.slots.length = p.slots.length + 8 := Place.length_operand
  have hy : y.refs ⊆ q.waiting := Place.refs_subset_waiting <| by
    simp [q, Place.operand, Place.gathered, Slot.values]
  have hq : p.held ++ y.refs ⊆ q.waiting := List.append_subset.mpr ⟨Place.operand_above.held, hy⟩
  have hcdr := (hm₁.cdr (h := h) hg₁ hact₁.scope rfl rfl hc₁ (by omega) (by omega)
    (by rw [hlen]; exact hv 8 (by decide))).frame
  refine (hcdr.mono Place.operand_above.slots
    (fun _ hr => .root (Place.waiting_subset_held (hq hr)))
    (Nat.le_refl _) (Nat.le_refl _)).bind 3 (fun m₂ ha₂ hg₂ hm₂ => ?_) (Nat.le_refl _)
  have hact₂ := hact₁.leaves ha₂.toLeaves hg₁.sound fun _ hr => .root (List.mem_append_left _ hr)
  have hroom₂ := ha₂.room
  have hrest₂ : m₂.image.store.Spells lib .nil (.list [] .nil) := .nil
  refine (hm₂.left.apply [] hg₂ (fun _ hr => hm₂.left.mem_roots rfl (hq hr)) hrest₂ hact₂.scope .nil
    (by simp; omega) (by simp; omega)).frame.imp fun m₃ hm₃ => ?_
  exact ⟨hact₂.leaves hm₃.right.toLeaves hg₂.sound fun _ hr => .root (List.mem_append_left _ hr),
    hm₃.left⟩

-- The loop

-- A fact about an accumulator that lasts for as long as it and the procedure are held.
def Lasting (p : Place) (f : Value) (h : Nat) (J : Value → Machine → Prop) : Prop :=
  ∀ {a m m' next held}, J a m → m.Going next → p.waiting ⊆ m.roots next →
    (∀ r ∈ p.waiting, m.image.store.Refers held r) → m.image.store.Holds held f →
    m.image.store.Holds held a → Leaves held h m m' → J a m'

section

variable (lib p f) (g : Value) (level : Nat) (σ : List Slot) (s : Step × Machine) (spare : Nat)
variable (whole : List Value) (J : List Value → List Call → Value → Machine → Prop)

-- Every call that a fold makes comes back, with an accumulator for one more element.
def Advances : Prop :=
  ∀ ⦃a x l rest id ids vs done log m⦄ (e : FrameId),
    let q : Place := { p with env := e }
    Calling g level σ s log (.apply f, m) → m.Going (.apply f) → lib.Folding q f a l rest m →
    m.ToApply [a, x] (lib.foldPlace q f rest) → m.image.store.Row l (id :: ids) (x :: vs) .nil →
    J done log a m → done ++ x :: vs = whole → spare + 32 * (vs.length + 1) + 28 ≤
      m.image.store.room →
    ∃ y log' m', Calling g level σ s log' (.evalOperand, m') ∧ m'.Going .evalOperand ∧
      lib.Folding q f a l rest m' ∧ m'.With y (lib.foldPlace q f rest) ∧
      m'.image.store.Row l (id :: ids) (x :: vs) .nil ∧ J (done ++ [x]) log' y m' ∧
      spare + 32 * (vs.length + 1) + 4 ≤ m'.image.store.room

end

-- A fold is about to take up a list.
structure Turning (lib : Library) (p : Place) (f a l : Value) (ids : List PairId) (vs : List Value)
    (spare : Nat) (m : Machine) : Prop where
  going : m.Going (.apply (lib.value .foldl))
  loaded : lib.Loaded m
  toApply : ∃ e, m.ToApply [f, a, l] { p with env := e }
  ordinary : Ordinary m.image.store f
  row : m.image.store.Row l ids vs .nil
  room : spare + 32 * (vs.length + 1) ≤ m.image.store.room

section

variable {g : Value} {σ : List Slot} {s : Step × Machine} {spare : Nat}
variable {J : List Value → List Call → Value → Machine → Prop}
variable {ids : List PairId} {vs done whole : List Value} {log : List Call}

-- Once round the loop.
theorem Turning.turn (hm : Turning lib p f a l (id :: ids) (x :: vs) spare m)
    (hJ : ∀ done log, Lasting p f h (J done log)) (hb : Advances lib p f g level σ s spare whole J)
    (hσ : σ <:+ p.slots) (hh : p.slots.length + 19 ≤ h) (hv : p.Clear level)
    (hc : Calling g level σ s log (.apply (lib.value .foldl), m)) (hj : J done log a m)
    (hw : done ++ x :: vs = whole) : ∃ y l' log' m',
      Calling g level σ s log' (.apply (lib.value .foldl), m') ∧
        Turning lib p f y l' ids vs spare m' ∧
      J (done ++ [x]) log' y m' := by
  obtain ⟨hg, hl, ⟨e, hm⟩, hf, hrow, hroom⟩ := hm
  rw [List.length_cons] at hroom
  cases hrow
  case cons l' hcell hrow =>
    have hargs {v : Value} (hv : v ∈ [f, a, .pair id]) : m.image.store.Holds
      (p.waiting ++ [f, a, .pair id].flatMap Value.refs) v := Library.holds_argument p _ hv
    obtain ⟨m₁, hs₁, ha₁, hg₁, e₁, rest, hfold₁, hm₁⟩ :=
      foldl_step hl hg hm hf hcell (by omega) hh hv
    have hrow₁ := (Store.Row.cons hcell hrow).keeps (hargs (by simp)) ha₁.keeps
    have hj₁ := hJ done log hj hg (fun r hr => hm.mem_roots (List.mem_cons_of_mem _ hr))
      (fun r hr => .root (List.mem_append_left _ hr)) (hargs (by simp)) (hargs (by simp))
        ha₁.toLeaves
    have hroom₁ := ha₁.room
    obtain ⟨y, log', m₂, hc₂, hg₂, hfold₂, hm₂, hrow₂, hj₂, hroom₂⟩ :=
      hb e₁ (hc.stretch (hs₁.mono hσ)) hg₁ hfold₁ hm₁ hrow₁ hj₁ hw (by omega)
    cases hrow₂
    case cons l₂ hcell hrow₂ =>
      let q : Place := { p with env := e₁ }
      obtain ⟨m₃, hs₃, ha₃, hg₃, hact₃, hm₃⟩ := foldl_next hfold₂ hg₂ hm₂ hcell (by omega) hh hv
      have hq : ∀ r ∈ q.held, m₂.image.store.Refers (q.held ++ y.refs) r := fun _ hr =>
        .root (List.mem_append_left _ hr)
      have hf₂ : m₂.image.store.Holds (q.held ++ y.refs) f := fun r hr =>
        (hfold₂.active.holds hg₂.sound "f" rfl r hr).mono hq
      have hl₂ : m₂.image.store.Holds (q.held ++ y.refs) (.pair id) := fun r hr =>
        (hfold₂.active.holds hg₂.sound "xs" rfl r hr).mono hq
      have hj₃ := hJ _ _ hj₂ hg₂ (fun r hr => hm₂.held_subset_roots (Place.waiting_subset_held hr))
        (fun r hr => hq r (Place.waiting_subset_held hr)) hf₂
        (Store.holds_of_subset (List.subset_append_right _ _)) ha₃.toLeaves
      have hroom₃ := ha₃.room
      exact ⟨y, l₂, log', m₃, hc₂.stretch (hs₃.mono hσ), ⟨hg₃, hact₃.loaded, ⟨e₁, hm₃⟩,
        hfold₂.ordinary.keeps hf₂ ha₃.keeps, hrow₂.keeps (hl₂.parts hcell).right ha₃.keeps, by
          omega⟩, hj₃⟩

-- By induction on the list that is left.
theorem Turning.runs (hm : Turning lib p f a l ids vs spare m)
    (hJ : ∀ done log, Lasting p f h (J done log)) (hb : Advances lib p f g level σ s spare whole J)
    (hσ : σ <:+ p.slots) (hh : p.slots.length + 19 ≤ h) (hv : p.Clear level)
    (hc : Calling g level σ s log (.apply (lib.value .foldl), m)) (hj : J done log a m)
    (hw : done ++ vs = whole) : ∃ b log' m', Calling g level σ s log' (p.cont, m') ∧
      m'.Going p.cont ∧ m'.With b p ∧ lib.Loaded m' ∧ spare ≤ m'.image.store.room ∧
      J whole log' b m' := by
  induction vs generalizing m a l ids done log
  case nil =>
    obtain ⟨hg, hl, ⟨e, hm⟩, -, hrow, hroom⟩ := hm
    cases hrow
    have hargs {v : Value} (hv : v ∈ [f, a, .nil]) : m.image.store.Holds
      (p.waiting ++ [f, a, .nil].flatMap Value.refs) v := Library.holds_argument p _ hv
    have hh' : p.slots.length + 9 ≤ h := by omega
    obtain ⟨m', hs, ha, hg', hm', hl'⟩ := foldl_done hl hg hm (by omega) hh' hv
    have hroom' := ha.room
    have hj' := hJ done log hj hg (fun r hr => hm.mem_roots (List.mem_cons_of_mem _ hr))
      (fun r hr => .root (List.mem_append_left _ hr)) (hargs (by simp)) (hargs (by simp))
        ha.toLeaves
    refine ⟨a, log, m', hc.stretch (hs.mono hσ), hg', ⟨hm'.global, hm'.val, hm'.slots⟩,
      hl', by omega, ?_⟩
    rwa [← hw, List.append_nil]
  case cons x vs hi =>
    obtain _ | ⟨id, ids⟩ := ids
    · cases hm.row
    obtain ⟨y, l', log', m₁, hc₁, hm₁, hj₁⟩ := hm.turn hJ hb hσ hh hv hc hj hw
    exact hi hm₁ hc₁ hj₁ (by rw [← hw, List.append_assoc]; rfl)

end

end Machine
end StepLisp
