import StepLisp.Proofs.Prelude.HigherOrder

namespace StepLisp

open Machine Library

variable {lib : Library} {m m' : Machine} {p q : Place} {f a l x y xs rest : Value} {e : FrameId}
variable {id : ClosureId} {held : List Ref} {h level spare : Nat} {next : Step}
variable {vs ws done tail : List Value} {ids : List PairId} {R : Store → Value → Value → Prop}

theorem exists_value {S : Value → Value → Prop} (h : List.Forall₂ S (done ++ x :: tail) ws) :
    ∃ y, S x y ∧ ws[done.length]? = some y := by
  induction done generalizing ws
  all_goals cases h
  case nil hx _ => exact ⟨_, hx, rfl⟩
  case cons hi _ _ _ h =>
    have ⟨y, hy, hw⟩ := hi h
    exact ⟨y, hy, hw⟩

-- A procedure comes to a value in quiet steps, wherever `R` says what the value is.
structure Library.Answers (lib : Library) (level h : Nat) (f : Value)
    (R : Store → Value → Value → Prop) :
    Prop where
  keeps {s s' : Store} {held : List Ref} {x y : Value} : R s x y → s.Holds held f → s.Holds held x →
    s.Keeps held s' → R s' x y
  passes {m : Machine} {q : Place} {x y : Value} : m.Going (.apply f) → lib.Loaded m →
    m.ToApply [x] q →
    R m.image.store x y → 16 ≤ m.image.store.room → level < q.slots.length →
      q.slots.length + 12 ≤ h →
    Passes level q.waiting q.slots 16 h (.apply f) m q.cont (With y q)

theorem Library.Answers.forall₂_keeps {s s' : Store} (hf : lib.Answers level h f R)
    (hv : List.Forall₂ (R s) vs ws) (hh : s.Holds held f) (hvs : ∀ x ∈ vs, s.Holds held x)
    (hk : s.Keeps held s') : List.Forall₂ (R s') vs ws := by
  induction hv
  case nil => exact .nil
  case cons hx _ hi =>
    have ⟨hx', hvs⟩ := List.forall_mem_cons.mp hvs
    exact .cons (hf.keeps hx hh hx' hk) (hi hvs)

-- A call of `map` that waits for its fold.
structure Library.Mapping (lib : Library) (f xs : Value) (p : Place)
    (R : Store → Value → Value → Prop)
    (ids : List PairId) (vs ws : List Value) (m : Machine) : Prop where
  active : lib.Active Definition.map.params [f, xs] p m
  ordinary : Ordinary m.image.store f
  row : m.image.store.Row xs ids vs .nil
  values : List.Forall₂ (R m.image.store) vs ws

namespace Library.Mapping

-- Where the fold goes on.
def foldAt (lib : Library) (p : Place) : Place :=
  p.operand (lib.value .reverse) [] .nil

theorem held_subset_foldAt : p.held ⊆ (foldAt lib p).waiting :=
  Place.operand_above.held

theorem leaves (hm : lib.Mapping f xs p R ids vs ws m) (hf : lib.Answers level h f R)
    (hs : m.image.store.Sound) (hh : ∀ r ∈ (foldAt lib p).waiting, m.image.store.Refers held r)
    (hl : Leaves held h m m') : lib.Mapping f xs p R ids vs ws m' := by
  have hp : ∀ r ∈ p.held, m.image.store.Refers held r := fun r hr => hh r (held_subset_foldAt hr)
  have hholds {v : Value} (name : String)
      (hv : (lib.inside Definition.map.params [f, xs]).lookup name = some v) :
      m.image.store.Holds held v := fun r hr => (hm.active.holds hs name hv r hr).mono hp
  exact ⟨hm.active.leaves hl hs hp, hm.ordinary.keeps (hholds "f" rfl) hl.keeps,
    hm.row.keeps (hholds "xs" rfl) hl.keeps, hf.forall₂_keeps hm.values (hholds "f" rfl)
      (hm.row.holds (hholds "xs" rfl)).left hl.keeps⟩

-- The procedure is applied to an element.
theorem call (hm : lib.Mapping f xs p R ids vs ws m) (hf : lib.Answers level h f R)
    (hg : m.Going .eval) {L : FrameId} (hw : (foldAt lib p).waiting ⊆ q.waiting)
    (he : m.ToEval lib (.call "cons" [.call "f" [.symbol "x"], .symbol "acc"]) { q with env := L })
    (hsc : m.image.store.Scope lib L
      ([("x", x), ("acc", a)] ++ lib.inside Definition.map.params [f, xs]))
    (hx : ∀ {m' : Machine}, lib.Mapping f xs p R ids vs ws m' → R m'.image.store x y)
    (hr : 20 ≤ m.image.store.room) (hl : level < q.slots.length) (hh : q.slots.length + 18 ≤ h) :
    Passes level { q with env := L }.held q.slots 20 h .eval m q.cont fun m' => ∃ i,
      m'.With (.pair i) q ∧ m'.image.store.object? i.ref = some (.cell ⟨y, a⟩) := by
  let q' : Place := { q with env := L }
  have hq : q'.slots.length = q.slots.length := rfl
  refine (he.operand (p := q') [] [] hg rfl hsc rfl (ordinary_value rfl) .nil
    (by simp; omega)).bind 20 (fun m₁ ha₁ hg₁ hm₁ => ?_) (Nat.le_refl _)
  obtain ⟨r, hr₁, hm₁⟩ := hm₁
  have hup : (foldAt lib p).waiting ⊆ q'.held := fun r hr => Place.waiting_subset_held (hw hr)
  have hmap₁ := hm.leaves hf hg.sound (fun r hr => .root (hup hr)) ha₁.toLeaves
  have hsc₁ := hsc.keeps (.root (List.mem_cons_self : L.ref ∈ q'.held)) ha₁.keeps
  have hroom₁ := ha₁.room
  let t := q'.operand Builtin.cons.value [] r
  have ht : t.slots.length = q.slots.length + 6 := Place.length_operand
  have habove : q'.held ⊆ t.waiting := Place.operand_above.held
  have hrefs : r.refs ⊆ t.waiting := Place.refs_subset_waiting (by simp [t, Place.operand])
  refine ((hm₁.call (p := t) [x] hg₁ hsc₁ (x := "f") rfl hmap₁.ordinary (.cons rfl .nil)
    (by simp; omega) (by simp; omega)).frame.below Place.operand_above).bind 19
    (fun m₂ _ hg₂ hm₂ => ?_) (Nat.le_refl _)
  obtain ⟨hm₂, ha₂⟩ := hm₂
  have hheld {r : Ref} (hr : r ∈ q'.held) : r ∈ t.held := Place.waiting_subset_held (habove hr)
  have hmap₂ := hmap₁.leaves hf hg₁.sound (fun r hr => .root (hheld (hup hr))) ha₂.toLeaves
  have hsc₂ := hsc₁.keeps (.root (hheld List.mem_cons_self)) ha₂.keeps
  have hr₂ := hr₁.keeps (Store.holds_of_subset fun _ hr => Place.waiting_subset_held (hrefs hr))
    ha₂.keeps
  have hroom₂ := ha₂.room
  have hroom₂' : 19 ≤ m₂.image.store.room := by simp at hroom₂; omega
  refine ((hf.passes (q := t) hg₂ hmap₂.active.loaded hm₂ (hx hmap₂) (by omega) (by omega)
    (by omega)).frame.mono Place.operand_above.slots (fun _ hr => .root (habove hr)) (Nat.le_refl _)
    (Nat.le_refl h)).bind 3 (fun m₃ _ hg₃ hm₃ => ?_) (Nat.le_refl _)
  obtain ⟨hm₃, ha₃⟩ := hm₃
  have hsc₃ := hsc₂.keeps (.root (habove List.mem_cons_self)) ha₃.keeps
  have hr₃ := hr₂.keeps (Store.holds_of_subset hrefs) ha₃.keeps
  have hroom₃ := ha₃.room
  refine (hm₃.apply (p := q') [a] hg₃ hm₃.held_subset_roots hr₃ hsc₃ (.cons rfl .nil)
    (by simp; omega)
    (by simp; omega)).bind 1 (fun m₄ ha₄ hg₄ hm₄ => ?_) (Nat.le_refl _)
  have hroom₄ := ha₄.room
  refine (hm₄.cons (p := q') hg₄ (by omega) (by simp at hroom₄; omega)).imp ?_
  rintro m₅ ⟨i, hm₅, ho, -⟩
  exact ⟨i, ⟨hm₅.global, hm₅.val, hm₅.slots⟩, ho⟩

theorem value (hm : lib.Mapping f xs p R ids vs ws m) (hd : done ++ x :: tail = vs)
    (hy : ws[done.length]? = some y) : R m.image.store x y := by
  have hv := hm.values
  rw [← hd] at hv
  obtain ⟨z, hz, hget⟩ := exists_value hv
  cases hget.symm.trans hy
  exact hz

-- What the fold has collected, the last value first.
structure Collects (lib : Library) (f xs : Value) (p : Place) (R : Store → Value → Value → Prop)
    (ids : List PairId) (vs ws done : List Value) (a : Value) (m : Machine) : Prop
    extends lib.Mapping f xs p R ids vs ws m where
  exists_row : ∃ is, m.image.store.Row a is (ws.take done.length).reverse .nil

theorem Collects.lasting (hf : lib.Answers level h f R) (done : List Value) :
    Lasting (foldAt lib p) (.closure id) h (Collects lib f xs p R ids vs ws done) := by
  intro a m m' next held hm hg _ hh _ ha hl
  have ⟨is, hr⟩ := hm.exists_row
  exact ⟨hm.toMapping.leaves hf hg.sound hh hl, is, hr.keeps ha hl.keeps⟩

-- One more value.
theorem Collects.advance (hk : Collects lib f xs p R ids vs ws done a m)
    (hf : lib.Answers level h f R)
    (hg : m.Going (.apply (.closure id))) (hm : m.ToApply [a, x] q)
    (hc : m.image.store.Closes lib id ["acc", "x"]
      (.call "cons" [.call "f" [.symbol "x"], .symbol "acc"])
      p.env (lib.inside Definition.map.params [f, xs])) (hd : done ++ x :: tail = vs)
    (hw : (foldAt lib p).waiting ⊆ q.waiting) (hr : 24 ≤ m.image.store.room)
    (hl : level < q.slots.length) (hh : q.slots.length + 18 ≤ h) :
    Passes level q.waiting q.slots 24 h (.apply (.closure id)) m q.cont fun m' => ∃ y, m'.With y q ∧
      (Collects lib f xs p R ids vs ws done a m' →
        Collects lib f xs p R ids vs ws (done ++ [x]) y m') := by
  have hv := hk.values
  rw [← hd] at hv
  obtain ⟨y, -, hy⟩ := exists_value hv
  refine (hm.into hg hk.active.loaded hc rfl (by decide) hk.active.known (by omega)).frame.bind 24
    (fun m₁ _ hg₁ hm₁ => ?_) (Nat.le_refl _)
  obtain ⟨⟨L, hm₁, -, hsc⟩, ha₁⟩ := hm₁
  have hmap := hk.toMapping.leaves hf hg.sound (fun r hr => .root (hw hr)) ha₁.toLeaves
  have hroom₁ := ha₁.room
  refine (Passes.inside
    (hmap.call hf hg₁ hw hm₁ hsc (fun hm => hm.value hd hy) (by omega) hl hh)).mono
    (List.suffix_refl _) (fun _ => .root) (by omega) (Nat.le_refl _) |>.imp ?_
  rintro m₂ ⟨i, hm₂, ho⟩
  refine ⟨.pair i, hm₂, fun hk' => ⟨hk'.toMapping, ?_⟩⟩
  have ⟨is, hrow⟩ := hk'.exists_row
  refine ⟨i :: is, ?_⟩
  rw [List.length_append, List.length_singleton, List.take_add_one, hy, List.reverse_append]
  exact .cons ho hrow

theorem fold (hm : lib.Mapping f xs p R ids vs ws m) (hf : lib.Answers level h f R)
    (ht : Turning lib (foldAt lib p) (.closure id) .nil xs ids vs spare m)
    (hc : m.image.store.Closes lib id ["acc", "x"]
      (.call "cons" [.call "f" [.symbol "x"], .symbol "acc"])
      p.env (lib.inside Definition.map.params [f, xs])) (hl : level < p.slots.length)
    (hh : p.slots.length + 31 ≤ h) :
    Computes level (foldAt lib p).waiting (foldAt lib p).slots h spare (.apply (lib.value .foldl)) m
      .evalOperand fun m' => ∃ b is, m'.With b (foldAt lib p) ∧ lib.Mapping f xs p R ids vs ws m' ∧
        m'.image.store.Row b is ws.reverse .nil := by
  have hp : (foldAt lib p).slots.length = p.slots.length + 6 := Place.length_operand
  have hclear : (foldAt lib p).Clear level := fun i _ => by omega
  obtain ⟨m', hs, hl', hg', hroom, -, b, hm', hk⟩ :=
    ht.computes hc ⟨hm, [], .nil⟩ (Collects.lasting hf)
    (fun hg _ hm hc hk hd hw hlen hr =>
      hk.advance hf hg hm hc hd hw hr (by omega) (by omega)) (by omega) hclear
  have ⟨is, hrow⟩ := hk.exists_row
  rw [hk.values.length_eq, List.take_length] at hrow
  exact ⟨m', hs, hl', hg', hroom, b, is, hm', hk.toMapping, hrow⟩

end Library.Mapping

-- The values are in the order of the elements.
theorem Library.Loaded.maps (hl : lib.Loaded m) (hg : m.Going (.apply (lib.value .map)))
    (hm : m.ToApply [f, xs] p) (ho : Ordinary m.image.store f) (hf : lib.Answers level h f R)
    (hrow : m.image.store.Row xs ids vs .nil) (hv : List.Forall₂ (R m.image.store) vs ws)
    (hr : spare + 64 * vs.length + 100 ≤ m.image.store.room) (hlv : level < p.slots.length)
    (hh : p.slots.length + 31 ≤ h) :
    Computes level p.waiting p.slots h spare (.apply (lib.value .map)) m p.cont fun m' =>
      lib.Loaded m' ∧ ∃ r, m'.With r p ∧ m'.image.store.Fresh p.waiting r ws .nil := by
  have hs : Traversal.Shape lib .map (.call "cons" [.call "f" [.symbol "x"], .symbol "acc"]) f xs :=
    ⟨by simp [Definition.all], rfl, rfl, rfl, rfl, rfl, rfl, "f", rfl⟩
  have hr₀ : spare + 1 + 32 * (vs.length + 2) + 32 * (vs.length + 1) + 3 ≤
    m.image.store.room := by omega
  refine (hs.enter (h := h) hl hg hm ho hrow hr₀ (by omega) fun i _ => by omega).computes
    (fun r hr => .root (List.mem_append_left _ hr)) ?_
  rintro m₁ ha₁ hg₁ ⟨e, id, hturn, hact, ho₁, hc₁⟩
  let q : Place := { p with env := e }
  have hq : q.slots.length = p.slots.length := rfl
  have hargs {v : Value} (hv : v ∈ [f, xs]) : m.image.store.Holds
    (p.waiting ++ [f, xs].flatMap Value.refs) v := holds_argument p _ hv
  have hv₁ := hf.forall₂_keeps hv (hargs (by simp)) (hrow.holds (hargs (by simp))).left ha₁.keeps
  have hmap : lib.Mapping f xs q R ids vs ws m₁ := ⟨hact, ho₁, hturn.row, hv₁⟩
  have habove : (Mapping.foldAt lib q).Above q := Place.operand_above
  have hwait : p.waiting ⊆ (Mapping.foldAt lib q).waiting := fun r hr =>
    habove.held (List.mem_cons_of_mem _ hr)
  refine (hmap.fold hf hturn hc₁ hlv hh).bind habove.slots (fun r hr => .root (hwait hr)) ?_
  rintro m₂ hl₂ hg₂ hroom₂ ⟨b, is, hm₂, hmap₂, hrow₂⟩
  have hnil : m₂.image.store.Spells lib .nil (.list [] .nil) := .nil
  refine (With.apply (p := q) (h := h) [] hg₂ hm₂ hm₂.subset_roots hnil hmap₂.active.scope .nil
    (by simp; omega)
    (by simp; omega)).computes
      (fun r hr => .root (List.mem_append_left _ (List.mem_cons_of_mem _ hr))) ?_
  intro m₃ ha₃ hg₃ hm₃
  have hact₃ := hmap₂.active.leaves ha₃.toLeaves hg₂.sound fun r hr =>
    .root (List.mem_append_left _ hr)
  have hrow₃ := hrow₂.keeps (Store.holds_of_subset (List.subset_append_right _ _)) ha₃.keeps
  have hroom₃ : spare + 32 * (ws.reverse.length + 2) ≤ m₃.image.store.room := by
    have := ha₃.room
    have := hv.length_eq
    simp at *
    omega
  have hclear : q.Clear level := fun i _ => by omega
  obtain ⟨m₄, hs₄, hl₄, hg₄, hroom₄, hload, r, hm₄, hfresh⟩ :=
    hact₃.loaded.reverse hg₃ hm₃ hrow₃ hroom₃ (by omega : q.slots.length + 19 ≤ h) hclear
      fun i _ => by omega
  rw [List.reverse_reverse] at hfresh
  exact ⟨m₄, hs₄, hl₄, hg₄, hroom₄, hload, r, ⟨hm₄.global, hm₄.val, hm₄.slots⟩, hfresh⟩

end StepLisp
