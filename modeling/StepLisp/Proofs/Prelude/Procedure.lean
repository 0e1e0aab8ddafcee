import StepLisp.Proofs.Prelude.Code

namespace StepLisp

-- The value that a builtin is bound to.
def Builtin.value (b : Builtin) : Value :=
  .builtin ⟨all.toList.idxOf b⟩

theorem Value.isNil_ofBool {b : Bool} : (Value.ofBool b).isNil = !b := by
  cases b <;> rfl

namespace Store

variable {s s' : Store} {lib : Library} {held : List Ref} {e : FrameId} {ρ : Bindings} {d : Datum}
variable {f g : Frame} {id : ClosureId} {names : List String} {vs : List Value} {n : Nat}

theorem allocClosure_gains (c : Closure) (hs : s.Sound) : ∃ id : ClosureId, ∃ s',
    allocClosure c s = .ok (.closure id) s' ∧ s.Gains 0 s' ∧
      s'.object? id.ref = some (.closure c) := by
  have ⟨id, s', ha, hn, hp⟩ := allocClosure_puts c hs
  have hr : s'.room + 0 = s.room := by
    cases ha
    rfl
  exact ⟨id, s', ha, .of_puts hn hp hr, (hp.object?_eq _).trans (if_pos rfl)⟩

theorem setFrame_puts (hs : s.Sound) (hf : s.frame e = .ok f) :
    s.Puts e.ref (.frame g) (s.setFrame e g) := by
  have hg : s.frames.get? e.index = some f := present_eq_ok_iff.mp hf
  refine .of_slab (fun _ => object?_frame) (fun _ => object?_frame) (fun j => ?_)
    { hs with frames := hs.frames.modify }
    fun ⟨kind, _⟩ hk => by cases kind <;> first | rfl | contradiction
  rw [setFrame, Slab.get?_modify]
  split <;> simp_all

-- A list of names in the code.
theorem Spells.symbols {v : Value} {names : List String}
    (hv : s.Spells lib v (.list (names.map .symbol) .nil)) :
    ∃ ids, s.Row v ids ((names.map lib.sym).map .symbol) .nil := by
  induction names generalizing v
  case nil =>
    cases hv
    exact ⟨[], .nil⟩
  case cons hi =>
    obtain ⟨id, w, rest, rfl, hc, hw, hr⟩ := hv.list_cons
    cases hw
    have ⟨ids, hrow⟩ := hi hr
    exact ⟨id :: ids, .cons hc hrow⟩

-- A procedure with these parameters and this body, made where the names mean this.
structure Closes (s : Store) (lib : Library) (id : ClosureId) (names : List String) (d : Datum)
    (e : FrameId) (ρ : Bindings) : Prop where
  exists_object : ∃ params body, s.object? id.ref = some (.closure ⟨params, body, e, false⟩) ∧
    s.Spells lib params (.list (names.map .symbol) .nil) ∧ s.Spells lib body d
  scope : s.Scope lib e ρ

namespace Closes

theorem holds (h : s.Closes lib id names d e ρ) (hh : s.Holds held (.closure id)) :
    s.Refers held e.ref := by
  obtain ⟨params, body, ho, -⟩ := h.exists_object
  exact (hh id.ref List.mem_cons_self).step ho (by simp [Object.refs, Closure.refs])

theorem keeps (h : s.Closes lib id names d e ρ) (hh : s.Holds held (.closure id))
    (hk : s.Keeps held s') : s'.Closes lib id names d e ρ where
  exists_object := by
    have ⟨params, body, ho, hp, hb⟩ := h.exists_object
    have hr := hh id.ref List.mem_cons_self
    refine ⟨params, body, hk.object? hr ho, hp.keeps (fun r hm => ?_) hk,
      hb.keeps (fun r hm => ?_) hk⟩
    all_goals exact hr.step ho (by simp [Object.refs, Closure.refs, hm])
  scope := h.scope.keeps (h.holds hh) hk

theorem ordinary (h : s.Closes lib id names d e ρ) : Machine.Ordinary s (.closure id) := by
  obtain ⟨params, body, ho, -⟩ := h.exists_object
  simp only [Machine.Ordinary, Machine.isSpecial, closure_of_object? ho]
  rfl

end Closes

-- A special procedure with these parameters, a name for the rest, and this body.
def IsForm (s : Store) (lib : Library) (k : ClosureId) (names : List String) (x : String)
    (d : Datum) :
    Prop :=
  ∃ params code g, s.object? k.ref = some (.closure ⟨params, code, g, true⟩) ∧
    s.Spells lib params (.list (names.map .symbol) (.list [.symbol "&", .symbol x] .nil)) ∧
    s.Spells lib code d

theorem IsForm.keeps {k : ClosureId} {x : String}
    (h : s.IsForm lib k names x d) (hk : s.Holds held (.closure k)) (hs : s.Keeps held s') :
    s'.IsForm lib k names x d := by
  obtain ⟨params, code, g, ho, hp, hc⟩ := h
  have hr := hk _ List.mem_cons_self
  exact ⟨params, code, g, hs.object? hr ho,
    hp.keeps (fun r hr' => hr.step ho (by simp [Object.refs, Closure.refs, hr'])) hs,
    hc.keeps (fun r hr' => hr.step ho (by simp [Object.refs, Closure.refs, hr'])) hs⟩

-- A frame that binds parameters to arguments.
def Framed (s : Store) (lib : Library) (e : FrameId) (names : List String) (vs : List Value)
    (parent : FrameId) : Prop :=
  ∃ f, s.frame e = .ok f ∧ f.parent = some parent ∧
    ∀ x, f.get? x = ((names.map lib.sym).zip vs).reverse.lookup x

namespace Framed

variable {parent : FrameId} {known : Set String}

theorem imp (h : s.Framed lib e names vs parent) (he : s'.object? e.ref = s.object? e.ref) :
    s'.Framed lib e names vs parent := by
  have ⟨f, hf, hp, hb⟩ := h
  exact ⟨f, frame_eq_ok_iff.mpr (he.trans (frame_eq_ok_iff.mp hf)), hp, hb⟩

theorem keeps (h : s.Framed lib e names vs parent) (he : s.Refers held e.ref)
    (hk : s.Keeps held s') :
    s'.Framed lib e names vs parent := by
  have ⟨f, hf, _⟩ := h
  have ho := frame_eq_ok_iff.mp hf
  exact h.imp ((hk.object? he ho).trans ho.symm)

theorem refers (h : s.Framed lib e names vs parent) (he : s.Refers held e.ref) :
    s.Refers held parent.ref := by
  obtain ⟨f, hf, hp, _⟩ := h
  exact he.step (frame_eq_ok_iff.mp hf) (List.mem_append_right _ (by simp [hp]))

theorem get? {f : Frame} {name : String} (h : s.Framed lib e names vs parent)
    (hf : s.frame e = .ok f) (hi : Set.InjOn lib.sym known) (hn : ∀ name ∈ names, name ∈ known)
    (hx : name ∈ known) : f.get? (lib.sym name) = (names.zip vs).reverse.lookup name := by
  obtain ⟨f', hf', -, hb⟩ := h
  cases hf'.symm.trans hf
  have hz : ∀ b ∈ (names.zip vs).reverse, b.1 ∈ known := fun b hb =>
    hn _ (List.of_mem_zip (List.mem_reverse.mp hb)).left
  rw [hb, ← lookup_map hi hz hx, List.map_reverse, List.zip_map_left]

-- Its bindings go before those of its parent.
theorem scope (h : s.Framed lib e names vs parent) (hs : s.Scope lib parent ρ)
    (hi : Set.InjOn lib.sym known) (hn : ∀ name ∈ names, name ∈ known)
    (hρ : ∀ b ∈ ρ, b.1 ∈ known) : s.Scope lib e ((names.zip vs).reverse ++ ρ) := by
  have ⟨f, hf, hp, _⟩ := h
  have ⟨es, hc⟩ := hs.exists_chain
  refine ⟨⟨_, .link hf hp hc⟩, fun name v hv => ?_⟩
  have hx : name ∈ known := by
    obtain ⟨l₁, l₂, hl, -⟩ := List.lookup_eq_some_iff.mp hv
    have hm : (name, v) ∈ (names.zip vs).reverse ++ ρ := by simp [hl]
    rcases List.mem_append.mp hm with hm | hm
    · exact hn _ (List.of_mem_zip (List.mem_reverse.mp hm)).left
    · exact hρ _ hm
  have hget := h.get? hf hi hn hx
  rw [List.lookup_append] at hv
  cases hl : (names.zip vs).reverse.lookup name <;> rw [hl] at hv hget
  case some =>
    cases hv
    exact hc.sees hf hp hget
  case none => exact (hs.sees _ hv).child hf hp hget

end Framed

end Store

namespace Machine

variable {m m' m₁ : Machine} {lib : Library} {ρ : Bindings} {p q : Place} {b : Builtin}
variable {f u v w args rest : Value} {vs ws : List Value} {x name : String} {next next' : Step}
variable {d d' t : Datum} {ds ds' : List Datum} {n fuel c h level : Nat} {P : Machine → Prop}

theorem step_value : step (.apply b.value) = b.run := by
  cases b <;> rfl

theorem isSpecial_value (s : Store) : isSpecial s b.value = .ok b.isForm := by
  cases b <;> rfl

theorem ordinary_value {s : Store} (hb : b.isForm = false) : Ordinary s b.value :=
  (isSpecial_value s).trans (congrArg _ hb)

-- Forms

theorem ToForm.conditional (hg : m.Going (.apply Builtin.if.value)) (hm : m.ToForm lib [t, d, d'] p)
    (hh : p.slots.length + 4 ≤ h) (hl : p.slots.length ≠ level) :
    Passes level p.held p.slots 0 h (.apply Builtin.if.value) m .eval fun m' => ∃ v w,
      m'.image.store.Spells lib v d ∧ m'.image.store.Spells lib w d' ∧
      m'.ToEval lib t (p.test v w) := by
  refine (hg.steps nofun fun m₁ hc => ?_).passes (fun r hr => .root <| hm.mem_roots hr)
    (hm.toPlaced.not_appliesAt hl) ?_
  · have hm₁ := hc.toForm hm
    obtain ⟨ids, _, hr,
      ⟨⟩ | @⟨u, _, _, _, hu, ⟨⟩ | @⟨v, _, _, _, hv, ⟨⟩ | @⟨w, _, _, _, hw, ⟨⟩⟩⟩⟩⟩ :=
      hm₁.argl.row
    let c := (((m₁.control.pushed (.step m₁.control.cont)).pushed (.env m₁.control.env)).pushed
      (.value v)).pushed (.value w)
    refine ⟨{ m₁ with control := { c with exp := u, cont := .ifBranch } }, ?_,
      ⟨.refl hc.keeps.sound, rfl, ?_⟩, v, w, hv, hw, ⟨hm₁.global, hm₁.env, rfl, ?_⟩, hu⟩
    · rw [step_value]
      show Machine.conditional m₁ = _
      rw [Machine.conditional, argl_bind_eq, query_bind_eq, hr.toList?]
      rfl
    · have hd := hm₁.slots ▸ m₁.control.stack.depth_eq
      simp only [c, Control.pushed, Stack.push]
      omega
    · simp [c, Control.pushed, Stack.push, hm₁.env, hm₁.cont, hm₁.slots, Place.test]
  · rintro m' ⟨v, w, -, -, hm'⟩
    exact hm'.slots ▸ Place.test_above.slots

-- A test has come out.
theorem With.branch (hg : m.Going .ifBranch) (hm : m.With u (p.test v w))
    (hv : m.image.store.Spells lib v d) (hw : m.image.store.Spells lib w d') :
    Passes level p.held p.slots 0 h .ifBranch m .eval
      (ToEval lib (if u.isNil then d' else d) p) := by
  refine (hg.steps nofun fun m₁ hc => ?_).passes
    (fun r hr => .root <| hm.mem_roots rfl <| Place.test_above.held hr) nofun
    fun m' hm' => hm'.slots ▸ List.suffix_refl _
  have hm₁ := hc.value hm
  have hslot {v' : Value} (hv' : .value v' ∈ (p.test v w).slots) :
      m.image.store.Holds (m.roots .ifBranch) v' := Store.holds_of_subset fun r hr =>
    hm.mem_roots rfl <| Place.refs_subset_waiting hv' hr
  have hu := hm₁.val
  subst hu
  refine ⟨{ m₁ with control := { m₁.control with
      env := p.env, cont := p.cont, stack := .ofSlots p.slots
      exp := if m₁.control.val.isNil then w else v } }, ?_,
    ⟨.refl hc.keeps.sound, rfl, Nat.le_max_left _ _⟩, ⟨hm₁.global, rfl, rfl, rfl⟩, ?_⟩
  · show ifBranch m₁ = _
    rw [ifBranch, onControl_bind_eq (Control.popValue_eq hm₁.slots)]
    rw [onControl_bind_eq (Control.popValue_eq rfl), onControl_bind_eq (Control.restore_eq rfl)]
    rfl
  · have hv₁ := hv.keeps (hslot (by simp [Place.test])) hc.keeps
    have hw₁ := hw.keeps (hslot (by simp [Place.test])) hc.keeps
    show m₁.image.store.Spells lib (if m₁.control.val.isNil then w else v) _
    split <;> assumption

theorem checkParamsFrom_of_row {ids : List PairId} {xs : List Symbol}
    (hv : m.image.store.Row v ids (xs.map .symbol) .nil) (hn : xs.length ≤ fuel) :
    checkParamsFrom fuel v m = .ok () m := by
  induction xs generalizing v ids fuel
  all_goals cases hv
  case nil =>
    rw [checkParamsFrom]
    rfl
  case cons x xs hi id rest ids hc hr =>
    obtain _ | fuel := fuel
    · cases hn
    have hcar : m.image.store.car id = .symbol x := Store.car_of_object? hc
    have hcdr : m.image.store.cdr id = rest := Store.cdr_of_object? hc
    rw [checkParamsFrom, query_bind_eq, hcar]
    show (query (·.cdr id) >>= checkParamsFrom fuel) m = _
    rw [query_bind_eq, hcdr]
    exact hi hr (Nat.le_of_succ_le_succ hn)

-- There is fuel enough for any list of names.
theorem checkParams_of_row {ids : List PairId} {xs : List Symbol}
    (hv : m.image.store.Row v ids (xs.map .symbol) .nil) : checkParams v m = .ok () m := by
  have hle := hv.length_le
  rw [List.length_map] at hle
  exact checkParamsFrom_of_row hv (Nat.le_succ_of_le hle)

theorem makeClosure_eq {params code body : Value} {special : Bool} {s : Store}
    (hc : checkParams params m = .ok () m) (hu : m.image.store.uncons? code = some (body, .nil))
    (ha : Store.allocClosure ⟨params, body, m.control.env, special⟩ m.image.store = .ok v s) :
    makeClosure params code special m = .ok v { m with image := { m.image with store := s } } := by
  simp only [makeClosure, Bind.bind, EStateM.bind, hc, query, hu, pure, EStateM.pure, env]
  exact onStore_of_ok ha

theorem ToForm.lambda {names : List String} (hg : m.Going (.apply Builtin.lambda.value))
    (hm : m.ToForm lib [.list (names.map .symbol) .nil, d] p)
    (hsc : m.image.store.Scope lib p.env ρ) (hl : p.slots.length ≠ level) :
    Passes level p.held p.slots 0 h (.apply Builtin.lambda.value) m p.cont fun m' => ∃ id,
      m'.With (.closure id) p ∧ m'.image.store.Closes lib id names d p.env ρ := by
  refine (hg.steps nofun fun m₁ hc => ?_).passes (fun r hr => .root <| hm.mem_roots hr)
    (hm.toPlaced.not_appliesAt hl) ?_
  · have hm₁ := hc.toForm hm
    obtain ⟨i, params, rest, hp, hi, hparams, hrest⟩ := hm₁.argl.list_cons
    obtain ⟨j, body, rest, rfl, hj, hbody, hnil⟩ := hrest.list_cons
    cases hnil
    have ⟨ids, hr⟩ := hparams.symbols
    obtain ⟨id, s', ha, hgain, ho⟩ := m₁.image.store.allocClosure_gains ⟨params, body, p.env, false⟩
      hc.keeps.sound
    refine ⟨{ m₁ with
        image := { m₁.image with store := s' }
        control := { m₁.control with val := .closure id } },
      ?_, ⟨hgain, rfl, Nat.le_max_left _ _⟩, id, ⟨hm₁.global, rfl, hm₁.slots⟩,
      ⟨params, body, ho, hparams.gains hgain, hbody.gains hgain⟩,
      (hc.scope hsc hm.toPlaced).gains hgain⟩
    rw [step_value]
    show Machine.lambda m₁ = _
    have hun : m₁.image.store.uncons? (.pair i) = some (params, .pair j) :=
      Store.uncons?_of_object? hi
    have hun' : m₁.image.store.uncons? (.pair j) = some (body, .nil) := Store.uncons?_of_object? hj
    rw [Machine.lambda, argl_bind_eq, hp]
    rw [← hm₁.env] at ha
    simp only [atLeastTwo, query, Bind.bind, EStateM.bind, hun, pure, EStateM.pure,
      makeClosure_eq (checkParams_of_row hr) hun' ha]
    rw [← hm₁.cont]
    rfl
  · rintro m' ⟨id, hm', -⟩
    exact hm'.slots ▸ List.suffix_refl _

-- Primitives

theorem arguments_eq (hm : m.ToApply vs p) : arguments b m = .ok vs m := by
  have ⟨ids, hr⟩ := hm.argl
  rw [arguments, argl_bind_eq, query_bind_eq, hr.toList?]
  rfl

theorem ToApply.delivers (hg : m.Going (.apply b.value)) (hm : m.ToApply vs p)
    (hl : p.slots.length ≠ level)
    (hb : ∀ m₁, Cleared (.apply b.value) m m₁ → m₁.ToApply vs p → b.run m₁ = deliver v m₁) :
    Passes level p.held p.slots 0 h (.apply b.value) m p.cont (With v p) := by
  refine (hg.steps nofun fun m₁ hc => ?_).passes (fun r hr => .root <| hm.mem_roots hr)
    (hm.toPlaced.not_appliesAt hl) fun m' hm' => hm'.slots ▸ List.suffix_refl _
  have hm₁ := hc.toApply hm
  refine ⟨{ m₁ with control := { m₁.control with val := v } }, ?_,
    ⟨.refl hc.keeps.sound, rfl, Nat.le_max_left _ _⟩, hm₁.global, rfl, hm₁.slots⟩
  rw [step_value, hb m₁ hc hm₁, ← hm₁.cont]
  rfl

-- The arguments are held, and so is what waits for the value.
theorem ToApply.refers (hm : m.ToApply vs p) {r : Ref}
    (hr : r ∈ p.waiting ++ vs.flatMap Value.refs) :
    m.image.store.Refers (m.roots next) r := by
  obtain ⟨ids, hrow⟩ := hm.argl
  have hargl : m.image.store.Holds (m.roots next) m.control.argl := Store.holds_of_subset
    fun r hr => mem_roots_of_control (by simp [Control.roots, hr])
  rcases List.mem_append.mp hr with hr | hr
  · exact .root <| hm.mem_roots (List.mem_cons_of_mem _ hr)
  · obtain ⟨v, hv, hr⟩ := List.mem_flatMap.mp hr
    exact (hrow.holds hargl).left v hv r hr

theorem ToApply.cleared (hm : m.ToApply vs p) (hc : Cleared next m m₁) {id : PairId} {c : Cell}
    (hv : .pair id ∈ vs) (ho : m.image.store.object? id.ref = some (.cell c)) :
    m₁.image.store.object? id.ref = some (.cell c) := by
  have hr : id.ref ∈ vs.flatMap Value.refs := List.mem_flatMap.mpr ⟨_, hv, List.mem_cons_self⟩
  exact hc.keeps.object? (hm.refers (List.mem_append_right _ hr)) ho

theorem ToApply.isNull (hg : m.Going (.apply Builtin.isNull.value)) (hm : m.ToApply [v] p)
    (hl : p.slots.length ≠ level) :
    Passes level p.held p.slots 0 h (.apply Builtin.isNull.value) m p.cont
      (With (.ofBool v.isNil) p) := by
  refine hm.delivers hg hl fun m₁ _ hm₁ => ?_
  show Machine.isNull m₁ = _
  simp only [Machine.isNull, oneArgument, Bind.bind, EStateM.bind, arguments_eq hm₁, pure,
    EStateM.pure]

theorem ToApply.car {id : PairId} {c : Cell} (hg : m.Going (.apply Builtin.car.value))
    (hm : m.ToApply [.pair id] p) (hl : p.slots.length ≠ level)
    (ho : m.image.store.object? id.ref = some (.cell c)) :
    Passes level p.held p.slots 0 h (.apply Builtin.car.value) m p.cont (With c.car p) := by
  refine hm.delivers hg hl fun m₁ hc hm₁ => ?_
  have hcar := Store.car_of_object? <| hm.cleared hc (by simp) ho
  show Machine.car m₁ = _
  simp only [Machine.car, oneArgument, Bind.bind, EStateM.bind, arguments_eq hm₁, pure,
    EStateM.pure,
    queryOrFail, Store.carOf, hcar]

theorem ToApply.cdr {id : PairId} {c : Cell} (hg : m.Going (.apply Builtin.cdr.value))
    (hm : m.ToApply [.pair id] p) (hl : p.slots.length ≠ level)
    (ho : m.image.store.object? id.ref = some (.cell c)) :
    Passes level p.held p.slots 0 h (.apply Builtin.cdr.value) m p.cont (With c.cdr p) := by
  refine hm.delivers hg hl fun m₁ hc hm₁ => ?_
  have hcdr := Store.cdr_of_object? <| hm.cleared hc (by simp) ho
  show Machine.cdr m₁ = _
  simp only [Machine.cdr, oneArgument, Bind.bind, EStateM.bind, arguments_eq hm₁, pure,
    EStateM.pure,
    queryOrFail, Store.cdrOf, hcdr]

theorem ToApply.add {i j k : Int64} (hg : m.Going (.apply Builtin.add.value))
    (hm : m.ToApply [.int i, .int j] p) (hl : p.slots.length ≠ level)
    (hk : Word.add? i j = some k) :
    Passes level p.held p.slots 0 h (.apply Builtin.add.value) m p.cont (With (.int k) p) := by
  refine hm.delivers hg hl fun m₁ _ hm₁ => ?_
  have hx : exact .add (Word.add? i j) = .ok k := by rw [hk, exact]
  show binary .add .add m₁ = _
  simp only [binary, twoArguments, Bind.bind, EStateM.bind, arguments_eq hm₁, pure, EStateM.pure,
    numeric, Operation.add, hx, arithmetic]

-- The new pair is one that nobody else refers to. Its parts may be held during the step.
theorem ToApply.pair {held : List Ref} (hg : m.Going (.apply Builtin.cons.value))
    (hm : m.ToApply [v, w] p)
    (hheld : ∀ r ∈ held, m.image.store.Refers (m.roots (.apply Builtin.cons.value)) r)
    (hl : p.slots.length ≠ level) (hr : 1 ≤ m.image.store.room) :
    Passes level held p.slots 1 h (.apply Builtin.cons.value) m p.cont fun m' => ∃ id,
      m'.With (.pair id) p ∧ m'.image.store.object? id.ref = some (.cell ⟨v, w⟩) ∧
      ¬m'.image.store.Refers p.waiting id.ref := by
  refine (hg.steps (fun h => by cases h) fun m₁ hc => ?_).passes hheld
    (hm.toPlaced.not_appliesAt hl) ?_
  · have hm₁ := hc.toApply hm
    obtain ⟨id, s, ha⟩ := Store.alloc_of_hasRoom (a := v) (b := w)
      (Store.hasRoom_of_room (s := m₁.image.store) (hr.trans hc.room))
    obtain ⟨hn, hp⟩ := Store.alloc_puts hc.keeps.sound ha
    have hgain : m₁.image.store.Gains 1 s := .of_puts hn hp (Store.room_alloc ha)
    have hwait : p.waiting ⊆ m.roots (.apply Builtin.cons.value) := fun r hr =>
      hm.mem_roots (List.mem_cons_of_mem _ hr)
    refine ⟨{ m₁ with
        image := { m₁.image with store := s }, control := { m₁.control with val := .pair id } }, ?_,
      ⟨hgain, rfl, Nat.le_max_left _ _⟩, id, ⟨hm₁.global, rfl, hm₁.slots⟩,
      (hp.object?_eq _).trans (if_pos rfl), fun href => ?_⟩
    · rw [step_value]
      show Machine.cons m₁ = _
      have hcons : Store.cons v w m₁.image.store = .ok (.pair id) s := by
        simp only [Store.cons, Bind.bind, EStateM.bind, ha, pure, EStateM.pure]
      simp only [Machine.cons, twoArguments, Bind.bind, EStateM.bind, arguments_eq hm₁, pure,
        EStateM.pure, onStore_of_ok hcons]
      rw [← hm₁.cont]
      rfl
    · have hk : m.image.store.Keeps p.waiting s :=
        (hc.keeps.mono fun r hr => .root (hwait hr)).trans (.of_gains hgain)
      have hid := (hg.refers_of_keeps hwait hk href).mono fun r hr => .root (hwait hr)
      obtain ⟨o, ho⟩ := hg.exists_object hid.reachable
      cases hn.symm.trans (hc.keeps.object? hid ho)
  · rintro m' ⟨id, hm', -⟩
    exact hm'.slots ▸ List.suffix_refl _

theorem ToApply.cons (hg : m.Going (.apply Builtin.cons.value)) (hm : m.ToApply [v, w] p)
    (hl : p.slots.length ≠ level) (hr : 1 ≤ m.image.store.room) :
    Passes level p.held p.slots 1 h (.apply Builtin.cons.value) m p.cont fun m' => ∃ id,
      m'.With (.pair id) p ∧ m'.image.store.object? id.ref = some (.cell ⟨v, w⟩) ∧
      ¬m'.image.store.Refers p.waiting id.ref :=
  hm.pair hg (fun _ hr => .root <| hm.mem_roots hr) hl hr

-- Closures

theorem bindParamsFrom_fits {frame : FrameId} {fr : Frame} {names : List Symbol} {r : Remainder}
    {params rest : Value} {ids : List PairId} (hp : m.image.store.Params params names r)
    (hn : m.image.store.Named params) (hf : m.image.store.frame frame = .ok fr)
    (hs : m.image.store.Spine args ids rest) (hl : ids.length = names.length)
    (ha : r.Admits m.image.store rest) :
    bindParamsFrom frame m.image.store.totalCells params args m =
      .ok () (m.withFrame frame (fr.defineAll (matched m.image.store names r ids rest))) := by
  have hm : Matches m.image.store m frame fr names r args
      (bindParamsFrom frame m.image.store.totalCells params args m) :=
    bindParamsFrom_matches hp rfl hf (hn.pairs_le hp)
  generalize bindParamsFrom frame m.image.store.totalCells params args m = res at hm
  cases hm
  case fits hs' hl' _ =>
    obtain ⟨rfl, rfl⟩ := hs.eq_of_length hs' (hl.trans hl'.symm)
    rfl
  case fails hne _ _ => exact (hne ids rest hs hl ha).elim

theorem bindParamsFrom_names {frame : FrameId} {fr : Frame} {names : List Symbol} {params : Value}
    {ids : List PairId} (hp : m.image.store.Params params names .none)
    (hn : m.image.store.Named params) (hf : m.image.store.frame frame = .ok fr)
    (hr : m.image.store.Row args ids vs .nil) (hl : names.length = vs.length) :
    bindParamsFrom frame m.image.store.totalCells params args m =
      .ok () (m.withFrame frame (fr.defineAll (names.zip vs))) := by
  have ⟨hs, hvs⟩ := hr.spine
  rw [bindParamsFrom_fits hp hn hf hs (hr.length_eq.trans hl.symm) (.inl ⟨rfl, rfl⟩), matched, hvs]
  simp [Remainder.name?]

-- The body is evaluated in a new frame, once it is known what the parameters are bound to.
theorem applyClosure_binds {id : ClosureId} {cl : Closure} (binds : List (Symbol × Value))
    (hs : m.image.store.Sound) (hm : m.Placed p)
    (ho : m.image.store.object? id.ref = some (.closure cl))
    (hb : ∀ {frame fr s}, m.image.store.Gains 0 s → s.frame frame = .ok fr →
      bindParamsFrom frame s.totalCells cl.params m.control.argl { m with image.store := s } =
        .ok () (withFrame { m with image.store := s } frame (fr.defineAll binds))) :
    ∃ e g m', applyClosure id m = .ok .eval m' ∧ Goes 0 0 m m' ∧ m'.Placed { p with env := e } ∧
      m'.control.exp = cl.body ∧ m'.image.store.frame e = .ok g ∧
      g.parent = some (if cl.special then p.env else cl.env) ∧
      ∀ x, g.get? x = binds.reverse.lookup x := by
  let parent := if cl.special then p.env else cl.env
  have ⟨frame, s, halloc, hnone, hputs⟩ := m.image.store.allocFrame_puts (some parent) hs
  have hroom : s.room + 0 = m.image.store.room := by
    cases halloc
    rfl
  have hframe : s.frame frame = .ok { parent := some parent } :=
    Store.frame_of_object? <| (hputs.object?_eq _).trans (if_pos rfl)
  let m₁ : Machine := { m with image.store := s }
  let g := Frame.defineAll { parent := some parent } binds
  have hgain : m.image.store.Gains 0 (s.setFrame frame g) :=
    .of_puts hnone (hputs.trans (Store.setFrame_puts hputs.sound hframe)) hroom
  have hframe' : (s.setFrame frame g).frame frame = .ok g := by
    rw [Store.frame_setFrame hframe, if_pos rfl]
  refine ⟨frame, g, { m₁.withFrame frame g with control := { m.control with
      env := frame, exp := cl.body } }, ?_, ⟨hgain, rfl, Nat.le_max_left _ _⟩,
    ⟨hm.global, rfl, hm.cont, hm.slots⟩, rfl, hframe', Frame.parent_defineAll, fun x => ?_⟩
  · rw [applyClosure_eq (Store.closure_of_object? ho), hm.env, enter_eq halloc]
    simp only [enterFor, Bind.bind, EStateM.bind]
    rw [hb (.of_puts hnone hputs hroom) hframe]
    rfl
  · rw [Frame.get?_defineAll]
    exact Option.or_none

theorem ToApply.enter {id : ClosureId} {names : List String} {e : FrameId} {held : List Ref}
    (hg : m.Going (.apply (.closure id))) (hm : m.ToApply vs p)
    (hh : ∀ r ∈ held, m.image.store.Refers (m.roots (.apply (.closure id))) r)
    (hcl : m.image.store.Closes lib id names d e ρ) (hn : names.length = vs.length)
    (hl : p.slots.length ≠ level) (ha : ∀ name ∈ names, lib.sym name ≠ .ampersand) :
    Passes level held p.slots 0 h (.apply (.closure id)) m .eval fun m' => ∃ e',
      m'.ToEval lib d { p with env := e' } ∧ m'.image.store.Framed lib e' names vs e ∧
      m'.image.store.Scope lib e ρ := by
  refine (hg.steps nofun fun m₁ hc => ?_).passes hh (hm.toPlaced.not_appliesAt hl) ?_
  · have hm₁ := hc.toApply hm
    have hid : m.image.store.Holds (m.roots (.apply (.closure id))) (.closure id) :=
      Store.holds_of_subset fun r hr => List.mem_append_left _ hr
    have hcl₁ := hcl.keeps hid hc.keeps
    obtain ⟨params, body, ho, hparams, hbody⟩ := hcl₁.exists_object
    have ⟨ids, hargl⟩ := hm₁.argl
    obtain ⟨e', g, m', hstep, hgoes, hm', hexp, hframe, hparent, hget⟩ :=
      applyClosure_binds ((names.map lib.sym).zip vs) hc.keeps.sound hm₁.toPlaced ho
        fun {frame fr s} hgain hframe => by
          have ⟨hp, hnamed⟩ := (hparams.gains hgain).params ha
          exact bindParamsFrom_names (m := { m₁ with image.store := s }) hp hnamed hframe
            (hargl.gains hgain) ((List.length_map lib.sym).trans hn)
    exact ⟨m', hstep, hgoes.mono (Nat.zero_le _), e', ⟨hm', hexp ▸ hbody.gains hgoes.gains⟩,
      ⟨g, hframe, hparent, hget⟩, hcl₁.scope.gains hgoes.gains⟩
  · rintro m' ⟨e', hm', -⟩
    exact hm'.slots ▸ List.suffix_refl _

theorem ToApply.enterForm {k : ClosureId} {names : List String} {x : String} {d : Datum}
    (hg : m.Going (.apply (.closure k))) (hm : m.ToApply (vs ++ ws) p)
    (hh : ∀ r ∈ held, m.image.store.Refers (m.roots (.apply (.closure k))) r)
    (hk : m.image.store.IsForm lib k names x d) (hn : names.length = vs.length)
    (hl : p.slots.length ≠ level) (hmark : lib.sym "&" = .ampersand)
    (ha : ∀ name ∈ names, lib.sym name ≠ .ampersand) :
    Passes level held p.slots 0 h (.apply (.closure k)) m .eval fun m' => ∃ e rest ids,
      m'.ToEval lib d { p with env := e } ∧
      m'.image.store.Framed lib e (names ++ [x]) (vs ++ [rest]) p.env ∧
      m'.image.store.Row rest ids ws .nil := by
  refine (hg.steps nofun fun m₁ hc => ?_).passes hh (hm.toPlaced.not_appliesAt hl) ?_
  · have hm₁ := hc.toApply hm
    have hk' : m.image.store.Holds (m.roots (.apply (.closure k))) (.closure k) :=
      Store.holds_of_subset fun r hr => List.mem_append_left _ hr
    obtain ⟨params, code, g, ho, hparams, hcode⟩ := hk.keeps hk' hc.keeps
    have ⟨ids, hargl⟩ := hm₁.argl
    obtain ⟨is, js, rest, hvs, hws⟩ := hargl.split
    obtain ⟨e, fr, m', hstep, hgoes, hm', hexp, hframe, hparent, hget⟩ :=
      applyClosure_binds (((names ++ [x]).map lib.sym).zip (vs ++ [rest])) hc.keeps.sound
        hm₁.toPlaced ho fun {frame fr s} hgain hframe => by
          obtain ⟨r, hp, hnamed, hx⟩ := (hparams.gains hgain).exists_params hmark ha
          have ⟨hs, hcars⟩ := (hvs.gains hgain).spine
          rw [bindParamsFrom_fits (m := { m₁ with image.store := s }) hp hnamed hframe hs
            (by simp [hvs.length_eq, hn]) (.inr (by simp [hx])), matched, hx, hcars]
          rw [List.map_append, List.zip_append (by simp [hn])]
          rfl
    exact ⟨m', hstep, hgoes.mono (Nat.zero_le _), e, rest, js,
      ⟨hm', hexp ▸ hcode.gains hgoes.gains⟩,
      ⟨fr, hframe, hparent, hget⟩, hws.gains hgoes.gains⟩
  · rintro m' ⟨e, rest, ids, hm', -⟩
    exact hm'.slots ▸ List.suffix_refl _

-- Expressions made of these

theorem ToEval.conditional (hg : m.Going .eval) (hm : m.ToEval lib (.call "if" [t, d, d']) p)
    (hsc : m.image.store.Scope lib p.env ρ) (hb : ρ.lookup "if" = some Builtin.if.value)
    (hh : p.slots.length + 4 ≤ h) (hl : p.slots.length ≠ level) :
    Passes level p.held p.slots 0 h .eval m .eval fun m' => ∃ v w,
      m'.image.store.Spells lib v d ∧ m'.image.store.Spells lib w d' ∧
      m'.ToEval lib t (p.test v w) :=
  (hm.form hg hsc hb isSpecial_value (by omega)).bind 0
    (fun _ _ hg₁ hm₁ => hm₁.conditional hg₁ hh hl) (Nat.le_refl _)

theorem ToEval.lambda {names : List String} (hg : m.Going .eval)
    (hm : m.ToEval lib (.call "lambda" [.list (names.map .symbol) .nil, d]) p)
    (hsc : m.image.store.Scope lib p.env ρ) (hb : ρ.lookup "lambda" = some Builtin.lambda.value)
    (hh : p.slots.length + 3 ≤ h) (hl : p.slots.length ≠ level) :
    Passes level p.held p.slots 0 h .eval m p.cont fun m' => ∃ id,
      m'.With (.closure id) p ∧ m'.image.store.Closes lib id names d p.env ρ :=
  (hm.form hg hsc hb isSpecial_value hh).bind 0
    (fun _ ha hg₁ hm₁ => hm₁.lambda hg₁ (hsc.keeps (.root List.mem_cons_self) ha.keeps) hl)
      (Nat.le_refl _)

theorem ToEval.isNull (hg : m.Going .eval) (hm : m.ToEval lib (.call "null?" [.symbol x]) p)
    (hsc : m.image.store.Scope lib p.env ρ) (hb : ρ.lookup "null?" = some Builtin.isNull.value)
    (hx : ρ.lookup x = some v) (hr : 1 ≤ m.image.store.room) (hh : p.slots.length + 5 ≤ h)
    (hl : p.slots.length ≠ level) :
    Passes level p.held p.slots 1 h .eval m p.cont (With (.ofBool v.isNil) p) :=
  (hm.call _ hg hsc hb (ordinary_value rfl) (.cons hx .nil) hr hh).bind 0
    (fun _ _ hg₁ hm₁ => hm₁.isNull hg₁ hl) (Nat.le_refl _)

theorem ToEval.ifNull (hg : m.Going .eval)
    (hm : m.ToEval lib (.call "if" [.call "null?" [.symbol x], d, d']) p)
    (hsc : m.image.store.Scope lib p.env ρ) (hb : ρ.lookup "if" = some Builtin.if.value)
    (hb' : ρ.lookup "null?" = some Builtin.isNull.value) (hx : ρ.lookup x = some v)
    (hr : 1 ≤ m.image.store.room) (hh : p.slots.length + 9 ≤ h) (hl : p.slots.length ≠ level)
    (hl' : p.slots.length + 4 ≠ level) :
    Passes level p.held p.slots 1 h .eval m .eval (ToEval lib (if v.isNil then d else d') p) := by
  refine (hm.conditional hg hsc hb (by omega) hl).bind 1 (fun m₁ ha₁ hg₁ hm₁ => ?_) (Nat.le_refl _)
  obtain ⟨w, w', hw, hw', hm₁⟩ := hm₁
  have hsc₁ := hsc.keeps (.root List.mem_cons_self) ha₁.keeps
  have hroom := ha₁.room
  have hslot {u : Value} (hu : .value u ∈ (p.test w w').slots) :
      m₁.image.store.Holds (p.test w w').held u := Store.holds_of_subset fun r hr =>
    Place.waiting_subset_held <| Place.refs_subset_waiting hu hr
  refine (hm₁.isNull hg₁ hsc₁ hb' hx (by omega) hh hl').frame.below Place.test_above |>.bind 0
    (fun m₂ _ hg₂ hm₂ => ?_) (Nat.le_refl _)
  have hw₂ := hw.keeps (hslot (by simp [Place.test])) hm₂.right.keeps
  have hw₂' := hw'.keeps (hslot (by simp [Place.test])) hm₂.right.keeps
  refine (hm₂.left.branch hg₂ hw₂ hw₂').imp fun m' hm' => ?_
  rw [Value.isNil_ofBool] at hm'
  revert hm'
  cases v.isNil <;> exact id

section

variable {id : PairId} {cell : Cell}

-- What a name leads to is there for as long as its scope is.
theorem Allocates.object? (ha : Allocates p.held c h m m') (hg : m.Going next)
    (hsc : m.image.store.Scope lib p.env ρ) (hx : ρ.lookup x = some (.pair id))
    (ho : m.image.store.object? id.ref = some (.cell cell)) :
    m'.image.store.object? id.ref = some (.cell cell) :=
  have hh := (hsc.sees _ hx).holds hg.sound (.root (List.mem_cons_self : p.env.ref ∈ p.held))
  ha.keeps.object? (hh id.ref List.mem_cons_self) ho

theorem ToEval.car (hg : m.Going .eval) (hm : m.ToEval lib (.call "car" [.symbol x]) p)
    (hsc : m.image.store.Scope lib p.env ρ) (hb : ρ.lookup "car" = some Builtin.car.value)
    (hx : ρ.lookup x = some (.pair id)) (ho : m.image.store.object? id.ref = some (.cell cell))
    (hr : 1 ≤ m.image.store.room) (hh : p.slots.length + 5 ≤ h)
    (hl : p.slots.length ≠ level) :
    Passes level p.held p.slots 1 h .eval m p.cont (With cell.car p) :=
  (hm.call _ hg hsc hb (ordinary_value rfl) (.cons hx .nil) hr hh).bind 0
    (fun _ ha hg₁ hm₁ => hm₁.car hg₁ hl (ha.object? hg hsc hx ho)) (Nat.le_refl _)

theorem ToEval.cdr (hg : m.Going .eval) (hm : m.ToEval lib (.call "cdr" [.symbol x]) p)
    (hsc : m.image.store.Scope lib p.env ρ) (hb : ρ.lookup "cdr" = some Builtin.cdr.value)
    (hx : ρ.lookup x = some (.pair id)) (ho : m.image.store.object? id.ref = some (.cell cell))
    (hr : 1 ≤ m.image.store.room) (hh : p.slots.length + 5 ≤ h)
    (hl : p.slots.length ≠ level) :
    Passes level p.held p.slots 1 h .eval m p.cont (With cell.cdr p) :=
  (hm.call _ hg hsc hb (ordinary_value rfl) (.cons hx .nil) hr hh).bind 0
    (fun _ ha hg₁ hm₁ => hm₁.cdr hg₁ hl (ha.object? hg hsc hx ho)) (Nat.le_refl _)

end

end Machine
end StepLisp
