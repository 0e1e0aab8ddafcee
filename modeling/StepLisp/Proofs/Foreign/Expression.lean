import StepLisp.Proofs.Prelude.Procedure

namespace StepLisp

open Slot (values)

namespace Place

variable {p : Place} {id : GroupId} {function : Symbol} {vs : List Value}

-- The stack during a step that evaluates operands of a foreign function, with the values of some.
def foreignGathered (p : Place) (id : GroupId) (function : Symbol) (vs : List Value) : List Slot :=
  values vs.reverse ++
    .sentinel :: .callee (.foreign id function) :: .env p.env :: .step p.cont :: p.slots

-- The place of the last operand, if it is a call.
def foreignOperand (p : Place) (id : GroupId) (function : Symbol) (vs : List Value) : Place :=
  { p with cont := .evalOperand, slots := .env p.env :: .value .nil ::
    p.foreignGathered id function vs }

theorem foreignOperand_above : (p.foreignOperand id function vs).Above p :=
  .of_slots (.env p.env :: .value .nil ::
    (values vs.reverse ++ [.sentinel, .callee (.foreign id function)])) rfl
    (by simp [foreignOperand, foreignGathered])

theorem length_foreignOperand :
    (p.foreignOperand id function vs).slots.length = p.slots.length + vs.length + 6 := by
  simp [foreignOperand, foreignGathered, values]
  omega

theorem length_foreignGathered :
    (p.foreignGathered id function vs).length = p.slots.length + vs.length + 4 := by
  simp [foreignGathered, values]
  omega

end Place

namespace Machine

variable {m m' m₁ : Machine} {lib : Library} {ρ : Bindings} {p q : Place} {g : Group} {id : GroupId}
variable {args v : Value} {vs ws : List Value} {function : Symbol} {name : String} {next : Step}
variable {d : Datum} {ds : List Datum} {c h level : Nat} {Q : Store → Value → Prop}

-- A foreign function only allocates, and yields a value of which `Q` holds.
def Gives (g : Group) (name : String) (vs : List Value) (c : Nat) (Q : Store → Value → Prop)
    (m : Machine) : Prop :=
  ∃ v s, g.call name vs m = .ok v { m with image := { m.image with store := s } } ∧
    m.image.store.Gains c s ∧ Q s v

theorem callForeign_eq (hid : Group.ofId? id = some g)
    (hl : m.image.store.toList? args = some vs) :
    callForeign id function args m = g.call (m.image.symbols.name function) vs m := by
  rw [callForeign, query_bind_eq, hl]
  show (group id >>= fun g => get >>= fun m => g.call (m.image.symbols.name function) vs) m = _
  rw [group, hid]
  rfl

-- The operands are there: the function is called.
theorem finishOperands_foreign (hm : m.control.stack.slots = p.foreignGathered id function vs)
    (hglobal : m.global = p.global) (hs : m.image.store.Sound) (hr : vs.length ≤ m.image.store.room)
    (hid : Group.ofId? id = some g) (hn : m.image.symbols.name function = name)
    (hgive : ∀ m' : Machine, m.image.store.Gains vs.length m'.image.store →
      Gives g name vs c Q m') :
    ∃ v m', finishOperands m = .ok p.cont m' ∧ Goes (vs.length + c) 0 m m' ∧ m'.With v p ∧
      Q m'.image.store v := by
  obtain ⟨args, s, ids, he, hg, hrow⟩ := finishOperands_eq hm hs hr
  let m₁ : Machine := { m with
    image := { m.image with store := s }
    control := { m.control with
      env := p.env
      cont := p.cont
      argl := args
      stack := .ofSlots p.slots } }
  obtain ⟨v, s', hcall, hg', hq⟩ := hgive m₁ hg
  have hfor : callForeign id function args m₁ =
      .ok v { m₁ with image := { m.image with store := s' } } := by
    rw [callForeign_eq hid (m := m₁) hrow.toList?]
    exact hn ▸ hcall
  refine ⟨v, { m₁ with
    image := { m.image with store := s' }, control := { m₁.control with val := v } },
    he.trans ?_, ⟨hg.trans hg', rfl, Nat.le_max_left _ _⟩, ⟨hglobal, rfl, rfl⟩, hq⟩
  show (callForeign id function args >>= deliver) m₁ = _
  rw [Act.bind_of_ok hfor]
  rfl

theorem operandsFrom_foreign {us : List Value} {ids : List PairId} {rest : Value} (fuel : Nat)
    (hm : m.control.stack.slots = p.foreignGathered id function vs) (henv : m.control.env = p.env)
    (hs : m.image.store.Sound) (ha : m.image.store.Row args ids us rest)
    (hw : List.Forall₂ (m.image.store.Finds p.env) us ws) : ∃ m',
      operandsFrom (us.length + fuel) args m = operandsFrom fuel rest m' ∧
      Goes 0 (p.slots.length + (vs.length + ws.length) + 4) m m' ∧ m'.image = m.image ∧
      m'.global = m.global ∧ m'.control.env = p.env ∧
      m'.control.stack.slots = p.foreignGathered id function (vs ++ ws) := by
  obtain ⟨m', he, hg, hi, hgl, henv', hsl⟩ := operandsFrom_values fuel hm hs ha (henv ▸ hw)
  refine ⟨m', he, hg.mono ?_, hi, hgl, henv'.trans henv, hsl⟩
  simp only [List.length_cons]
  omega

-- The names of the group and of the function are looked at, and the operands are begun with.
theorem foreignForm_eq {group function : String}
    (hm : m.ToForm lib (.symbol group :: .symbol function :: ds) p) (hs : m.image.store.Sound)
    (hn : m.image.symbols.name (lib.sym group) = group) (hid : Group.id? group = some id) :
    ∃ args m', foreignForm m = operands args m' ∧ m.image.store.Spells lib args (.list ds .nil) ∧
      Goes 0 (p.slots.length + 4) m m' ∧ m'.image = m.image ∧ m'.global = p.global ∧
      m'.control.env = p.env ∧
        m'.control.stack.slots = p.foreignGathered id (lib.sym function) [] := by
  obtain ⟨i, _, _, hp, hi, hgroup, hrest⟩ := hm.argl.list_cons
  cases hgroup
  obtain ⟨j, _, args, rfl, hj, hfunction, hargs⟩ := hrest.list_cons
  cases hfunction
  have hun : m.image.store.uncons? (.pair i) = some (.symbol (lib.sym group), .pair j) :=
    Store.uncons?_of_object? hi
  have hun' : m.image.store.uncons? (.pair j) = some (.symbol (lib.sym function), args) :=
    Store.uncons?_of_object? hj
  let c := (((m.control.pushed (.step m.control.cont)).pushed (.env m.control.env)).pushed
    (.callee (.foreign id (lib.sym function)))).pushed .sentinel
  refine ⟨args, { m with control := c }, ?_, hargs, ⟨.refl hs, rfl, ?_⟩, rfl, hm.global, hm.env, ?_⟩
  · have htwo : atLeastTwo .ffi (.pair i) m = .ok (.symbol (lib.sym group), .pair j) m := by
      rw [atLeastTwo, query_bind_eq, hun]
      rfl
    rw [foreignForm, argl_bind_eq, hp, Act.bind_of_ok htwo]
    simp only [query_bind_eq, hun', symbolOperand, pure_bind, get_bind_eq, hn, hid]
    rfl
  · have hd := hm.slots ▸ m.control.stack.depth_eq
    simp only [c, Control.pushed, Stack.push]
    omega
  · simp [c, Control.pushed, Stack.push, hm.env, hm.cont, hm.slots, Place.foreignGathered,
      Slot.values]

theorem Leaves.symbols {held : List Ref} (hm : Leaves held h m m') :
    m'.image.symbols = m.image.symbols :=
  congrArg (·.image.symbols) hm.world

theorem Cleared.symbols (hc : Cleared next m m₁) : m₁.image.symbols = m.image.symbols :=
  congrArg (·.image.symbols) hc.world

-- A foreign function whose operands are found on the spot.
theorem ToForm.foreign {group function : String} (ws : List Value)
    (hg : m.Going (.apply Builtin.ffi.value))
    (hm : m.ToForm lib (.symbol group :: .symbol function :: ds) p)
    (hn : ∀ name ∈ [group, function], m.image.symbols.name (lib.sym name) = name)
    (hid : Group.id? group = some id) (hid' : Group.ofId? id = some g)
    (hsc : m.image.store.Scope lib p.env ρ)
    (hw : List.Forall₂ (fun d w => d.value? ρ = some w) ds ws)
    (hgive : ∀ m' : Machine, m.image.store.Keeps (m.roots (.apply Builtin.ffi.value))
      m'.image.store →
      m.image.store.room ≤ m'.image.store.room + ws.length → Gives g function ws c Q m')
    (hr : ws.length ≤ m.image.store.room) (hh : p.slots.length + ws.length + 4 ≤ h)
    (hl : p.slots.length ≠ level) :
    Passes level p.held p.slots (ws.length + c) h (.apply Builtin.ffi.value) m p.cont fun m' =>
      ∃ v, m'.With v p ∧ Q m'.image.store v := by
  refine (hg.steps nofun fun m₁ hc => ?_).passes (fun r hr => .root <| hm.mem_roots hr)
    (hm.toPlaced.not_appliesAt hl) ?_
  · have ⟨hgroup, hfunction⟩ := List.forall_mem_cons.mp hn
    have hroom := hc.room
    obtain ⟨args, m₂, he, hargs, hg₂, hi₂, hgl₂, henv₂, hsl₂⟩ :=
      foreignForm_eq (hc.toForm hm) hc.keeps.sound (hc.symbols ▸ hgroup) hid
    obtain ⟨ids, us, hrow, hus⟩ := hargs.row
    have hfound := finds_of_spells hus (hc.scope hsc hm.toPlaced) hw
    rw [← hi₂] at hrow hfound
    have ⟨fuel, hf⟩ := operands_eq (m := m₂) args hrow.length_le
    obtain ⟨m₃, hop, hg₃, hi₃, hgl₃, -, hsl₃⟩ :=
      operandsFrom_foreign (fuel + 1) hsl₂ henv₂ hg₂.gains.sound hrow hfound
    rw [List.nil_append] at hsl₃
    have hi : m₃.image = m₁.image := hi₃.trans hi₂
    have hname : m₃.image.symbols.name (lib.sym function) = function := by
      rw [hi, hc.symbols]
      exact hfunction _ (List.mem_singleton_self _)
    obtain ⟨v, m', hfin, hg', hv, hq⟩ := finishOperands_foreign (c := c) (Q := Q) hsl₃
      (hgl₃.trans hgl₂) hg₃.gains.sound (by rw [hi]; omega) hid' hname fun m' hgain => by
        have := hgain.room
        rw [hi] at hgain this
        exact hgive m' (hc.keeps.trans (.of_gains hgain)) (by omega)
    refine ⟨m', ?_, ?_, v, hv, hq⟩
    · rw [step_value]
      show foreignForm m₁ = _
      rw [he, hf, hop]
      exact hfin
    · have hall : Goes _ h m₁ m' := (hg₂.mono (by omega)).trans <|
        (hg₃.mono (by simp; omega)).trans <| hg'.mono (Nat.zero_le _)
      simpa using hall
  · rintro m' ⟨v, hm', -⟩
    exact hm'.slots ▸ List.suffix_refl _

-- A foreign function whose last operand is a call.
theorem ToForm.foreignOperand {group function x : String} {es : List Datum} (ds : List Datum)
    (ws : List Value)
    (hg : m.Going (.apply Builtin.ffi.value))
    (hm : m.ToForm lib (.symbol group :: .symbol function :: (ds ++ [.call x es])) p)
    (hn : m.image.symbols.name (lib.sym group) = group) (hid : Group.id? group = some id)
    (hsc : m.image.store.Scope lib p.env ρ)
    (hw : List.Forall₂ (fun d w => d.value? ρ = some w) ds ws)
    (hh : p.slots.length + ws.length + 6 ≤ h) (hl : p.slots.length ≠ level) :
    Passes level p.held p.slots 0 h (.apply Builtin.ffi.value) m .eval
      (ToEval lib (.call x es) (p.foreignOperand id (lib.sym function) ws)) := by
  refine (hg.steps nofun fun m₁ hc => ?_).passes (fun r hr => .root <| hm.mem_roots hr)
    (hm.toPlaced.not_appliesAt hl) fun m' hm' => hm'.slots ▸ Place.foreignOperand_above.slots
  obtain ⟨args, m₂, he, hargs, hg₂, hi₂, hgl₂, henv₂, hsl₂⟩ :=
    foreignForm_eq (hc.toForm hm) hc.keeps.sound (hc.symbols ▸ hn) hid
  obtain ⟨ids, us, hall, hus⟩ := hargs.row
  have hle := hall.length_le
  rw [hus.length_eq, List.length_append] at hle
  obtain ⟨ids, us, rest, hrow, hus, hrest⟩ := hargs.split
  obtain ⟨j, v, _, rfl, hj, hv, hnil⟩ := hrest.list_cons
  cases hnil
  obtain ⟨i, rfl⟩ : ∃ i, v = .pair i := by cases hv; exact ⟨_, rfl⟩
  have hfound := finds_of_spells hus (hc.scope hsc hm.toPlaced) hw
  have ⟨fuel, hf⟩ := operands_eq (m := m₂) (n := us.length) args (by rw [hi₂, hus.length_eq]; omega)
  rw [← hi₂] at hrow hfound
  obtain ⟨m₃, hop, hg₃, hi₃, hgl₃, henv₃, hsl₃⟩ :=
    operandsFrom_foreign (fuel + 1) hsl₂ henv₂ hg₂.gains.sound hrow hfound
  rw [List.nil_append] at hsl₃
  have hi : m₃.image = m₁.image := hi₃.trans hi₂
  have hfin : foreignForm m₁ = _ := (he.trans (hf.trans hop)).trans (operandsFrom_pair (hi ▸ hj))
  refine ⟨_, (congrFun step_value m₁).trans hfin, ?_, ⟨hgl₃.trans hgl₂, henv₃, rfl, ?_⟩, hi ▸ hv⟩
  · have hall : Goes _ (p.slots.length + ws.length + 4) m₁ m₃ :=
      (hg₂.mono (by omega)).trans (hg₃.mono (by simp))
    have hd := hsl₃ ▸ m₃.control.stack.depth_eq
    rw [Place.length_foreignGathered] at hd
    refine ⟨hall.gains, hall.world, ?_⟩
    have := hall.highWater
    simp only [Control.pushed, Stack.push]
    omega
  · simp only [Control.pushed, Stack.push, hsl₃, henv₃, Place.foreignOperand]

-- The last operand has been evaluated.
theorem With.foreign (hg : m.Going .evalOperand)
    (hm : m.With v (p.foreignOperand id function vs))
    (hn : m.image.symbols.name function = name) (hid : Group.ofId? id = some g)
    (hgive : ∀ m' : Machine, m.image.store.Keeps (m.roots .evalOperand) m'.image.store →
      m.image.store.room ≤ m'.image.store.room + (vs.length + 1) → Gives g name (vs ++ [v]) c Q m')
    (hr : vs.length + 1 ≤ m.image.store.room) (hh : p.slots.length + vs.length + 5 ≤ h) :
    Passes level p.held p.slots (vs.length + 1 + c) h .evalOperand m p.cont fun m' =>
      ∃ v, m'.With v p ∧ Q m'.image.store v := by
  refine (hg.steps nofun fun m₁ hc => ?_).passes
    (fun r hr => .root <| hm.mem_roots rfl <| Place.foreignOperand_above.held hr) nofun ?_
  · have hm₁ := hc.value hm
    have hroom := hc.room
    let m₂ := (m₁.lowered p.env (p.foreignGathered id function vs)).pushed m₁.control.val
    have he : evalOperand m₁ = operands .nil m₂ := evalOperand_eq hm₁.slots
    have hsl : m₂.control.stack.slots = p.foreignGathered id function (vs ++ [v]) := by
      simp [m₂, pushed, lowered, Control.pushed, Stack.push, Stack.ofSlots, Place.foreignGathered,
        Slot.values, hm₁.val]
    obtain ⟨u, m', hfin, hg', hu, hq⟩ :=
      finishOperands_foreign (m := m₂) (c := c) (Q := Q) hsl hm₁.global
      hc.keeps.sound (show (vs ++ [v]).length ≤ m₁.image.store.room by simp; omega) hid
      (show m₁.image.symbols.name function = name by rw [hc.symbols, hn]) fun m' hgain => by
        have := hgain.room
        refine hgive m' (hc.keeps.trans (.of_gains hgain)) ?_
        rw [List.length_append, List.length_singleton] at this
        exact (hroom.trans this.ge)
    have hup : Goes 0 (p.slots.length + vs.length + 5) m₁ m₂ := by
      refine .of_control hc.keeps.sound rfl rfl ?_
      have hl : (p.foreignGathered id function vs).length = _ := Place.length_foreignGathered
      simp only [m₂, pushed, lowered, Control.pushed, Stack.push, Stack.ofSlots]
      omega
    refine ⟨m', he.trans hfin, ?_, u, hu, hq⟩
    have hall : Goes _ h m₁ m' := (hup.mono hh).trans (hg'.mono (Nat.zero_le _))
    simpa using hall
  · rintro m' ⟨v, hm', -⟩
    exact hm'.slots ▸ List.suffix_refl _

end Machine
end StepLisp
