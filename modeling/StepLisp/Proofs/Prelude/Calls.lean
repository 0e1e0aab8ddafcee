import StepLisp.Proofs.Prelude.Library

namespace StepLisp

-- A call that has come back: its arguments and its value.
structure Call where
  args : List Value
  value : Value

namespace Machine

variable {f g : Value} {level : Nat} {σ τ : List Slot} {s s' s'' : Step × Machine}
variable {calls calls' : List Call} {m m' : Machine} {args : List Value}

-- A procedure that is about to be applied comes back.
structure Returns (f : Value) (m m' : Machine) : Prop where
  toOver : Over m.control.stack.slots (.apply f, m) (m.control.cont, m')
  slots : m'.control.stack.slots = m.control.stack.slots

-- Quiet steps on top of `σ`, and calls of `f` between them. The calls are all the applications of a
-- procedure at the given level.
inductive Calling (f : Value) (level : Nat) (σ : List Slot) :
    Step × Machine → List Call → Step × Machine → Prop
  | quiet {s s' : Step × Machine} : Stretch level σ s s' → Calling f level σ s [] s'
  | call {s s' : Step × Machine} {m m' : Machine} {args : List Value} {calls : List Call} :
    Stretch level σ s (.apply f, m) → σ <:+ m.control.stack.slots →
    m.control.stack.slots.length = level → m.image.store.toList? m.control.argl = some args →
    Returns f m m' → Calling f level σ (m.control.cont, m') calls s' →
    Calling f level σ s (⟨args, m'.control.val⟩ :: calls) s'

namespace Calling

theorem after (hs : Stretch level σ s s') (hc : Calling g level σ s' calls s'') :
    Calling g level σ s calls s'' := by
  rcases hc with hs' | ⟨hs', hσ, hl, ha, hr, hc⟩
  · exact .quiet (hs.trans hs')
  · exact .call (hs.trans hs') hσ hl ha hr hc

theorem trans (hc : Calling g level σ s calls s') (hc' : Calling g level σ s' calls' s'') :
    Calling g level σ s (calls ++ calls') s'' := by
  induction hc
  case quiet hs => exact hc'.after hs
  case call hs hσ hl ha hr _ hi => exact .call hs hσ hl ha hr (hi hc')

theorem stretch (hc : Calling g level σ s calls s') (hs : Stretch level σ s' s'') :
    Calling g level σ s calls s'' := by
  have h := hc.trans (.quiet hs)
  rwa [List.append_nil] at h

-- One more call.
theorem snoc (hc : Calling g level σ s calls (.apply g, m)) (hσ : σ <:+ m.control.stack.slots)
    (hl : m.control.stack.slots.length = level)
    (ha : m.image.store.toList? m.control.argl = some args) (hr : Returns g m m') :
    Calling g level σ s (calls ++ [⟨args, m'.control.val⟩]) (m.control.cont, m') :=
  hc.trans <| .call .refl hσ hl ha hr (.quiet .refl)

theorem toOver (hc : Calling g level σ s calls s') : Over σ s s' := by
  induction hc
  case quiet hs => exact hs.toOver
  case call hs hσ _ _ hr _ hi => exact hs.toOver.trans <| (hr.toOver.mono hσ).trans hi

theorem quiet_of_nil (hc : Calling g level σ s [] s') : Stretch level σ s s' := by
  cases hc
  case quiet hs => exact hs

end Calling
end Machine

namespace Library

open Machine

variable {lib : Library} {lists params names : List String} {kept : List Ref} {f : Value}
variable {room level arity : Nat}
variable {p q : Place} {m m' : Machine} {τ : List Slot} {vs : List Value} {v : Value} {d : Datum}
variable {ρ : Bindings} {e parent : FrameId}

-- What procedures of a library that wait on the stack work with: their code, their frames, the
-- closures they have made, and the lists that some of their variables stand for.
inductive Works (lib : Library) (lists : List String) (τ : List Slot) (s : Store) : Ref → Prop
  | code {id : PairId} : id ∈ lib.code → s.Refers (τ.flatMap Slot.refs) id.ref →
    Works lib lists τ s id.ref
  | frame {e : FrameId} : .env e ∈ τ → Works lib lists τ s e.ref
  | closure {id : ClosureId} : .value (.closure id) ∈ τ → Works lib lists τ s id.ref
  | list {e : FrameId} {fr : Frame} {name : String} {v : Value} {ids : List PairId}
    {vs : List Value}
    {id : PairId} : .env e ∈ τ → s.frame e = .ok fr → name ∈ lists →
    fr.get? (lib.sym name) = some v → s.Row v ids vs .nil → id ∈ ids → Works lib lists τ s id.ref

-- A call leaves all that alone. The caller at `p` still has what it kept. There is as much room as
-- there was, or as much as is needed.
structure Spares (lib : Library) (lists : List String) (p : Place) (kept : List Ref) (f : Value)
    (room : Nat) (m m' : Machine) : Prop where
  loaded : lib.Loaded m'
  ordinary : Ordinary m'.image.store f
  object? {τ : List Slot} {r : Ref} : m.control.stack.slots = τ ++ p.slots →
    lib.Works lists τ m.image.store r → m'.image.store.object? r = m.image.store.object? r
  kept {r : Ref} : r ∈ kept → m.image.store.Refers p.waiting r →
    m'.image.store.Refers p.waiting r ∧ m'.image.store.object? r = m.image.store.object? r
  room : min room m.image.store.room ≤ m'.image.store.room

-- So does every call that a run makes at its level, and each of them comes back.
def Considerate (lib : Library) (lists : List String) (p : Place) (kept : List Ref) (f : Value)
    (room level arity : Nat) (vs : List Value) (s : Step × Machine) : Prop :=
  ∀ ⦃log m args q⦄, Calling f level p.slots s log (.apply f, m) → lib.Loaded m → m.ToApply args q →
    q.slots.length = level → args.length = arity → args.getLast? = vs[log.length]? →
    ∃ m', Returns f m m' ∧ lib.Spares lists p kept f room m m'

namespace Spares

variable (hs : lib.Spares lists p kept f room m m') (hτ : m.control.stack.slots = τ ++ p.slots)
include hs hτ

theorem active (ha : lib.Active params vs q m) (he : .env q.env ∈ τ) (hg : m'.global = m.global) :
    lib.Active params vs q m' where
  loaded := hs.loaded
  global := hg.trans ha.global
  known := ha.known
  framed := ha.framed.imp (hs.object? hτ (.frame he))

theorem spells (h : m.image.store.Spells lib v d) (hv : ∀ r ∈ v.refs,
    m.image.store.Refers (τ.flatMap Slot.refs) r) : m'.image.store.Spells lib v d :=
  h.imp fun _ hid hr _ hc => (hs.object? hτ (.code hid (hr.mono hv))).trans hc

theorem closes {id : ClosureId} (h : m.image.store.Closes lib id names d e ρ)
    (hid : .value (.closure id) ∈ τ) (hsc : m'.image.store.Scope lib e ρ) :
    m'.image.store.Closes lib id names d e ρ where
  exists_object := by
    have ⟨params, body, ho, hp, hb⟩ := h.exists_object
    have hr : m.image.store.Refers (τ.flatMap Slot.refs) id.ref :=
      .root <| List.mem_flatMap.mpr ⟨_, hid, List.mem_cons_self⟩
    refine ⟨params, body, (hs.object? hτ (.closure hid)).trans ho, ?_, ?_⟩
    · exact hs.spells hτ hp fun r hm => hr.step ho (by simp [Object.refs, Closure.refs, hm])
    · exact hs.spells hτ hb fun r hm => hr.step ho (by simp [Object.refs, Closure.refs, hm])
  scope := hsc

theorem row {ids : List PairId} {us : List Value} {name : String} {known : Set String}
    (hf : m.image.store.Framed lib e names vs parent) (he : .env e ∈ τ)
    (hi : Set.InjOn lib.sym known) (hn : ∀ name ∈ names, name ∈ known) (hx : name ∈ known)
    (hl : name ∈ lists) (hv : (names.zip vs).reverse.lookup name = some v)
    (hr : m.image.store.Row v ids us .nil) : m'.image.store.Row v ids us .nil := by
  have ⟨fr, hfr, _⟩ := hf
  have hget := (hf.get? hfr hi hn hx).trans hv
  exact hr.imp fun id hid _ hc => (hs.object? hτ (.list he hfr hl hget hr hid)).trans hc

end Spares

-- What the caller kept is as it was at the start.
def Remains (p : Place) (kept : List Ref) (m m' : Machine) : Prop :=
  ∀ r ∈ kept, m'.image.store.Refers p.waiting r ∧
    m'.image.store.object? r = m.image.store.object? r

namespace Remains

variable {m₀ : Machine} {next : Step} {held : List Ref} {h : Nat}

theorem leaves (hk : Remains p kept m₀ m) (hg : m.Going next) (hw : p.waiting ⊆ m.roots next)
    (hh : ∀ r ∈ p.waiting, m.image.store.Refers held r) (hl : Leaves held h m m') :
    Remains p kept m₀ m' := by
  intro r hr
  have ⟨href, ho⟩ := hk r hr
  have ⟨o, ho'⟩ := hg.exists_object (href.mono fun _ hr => .root (hw hr)).reachable
  have hkeeps := hl.keeps.mono hh
  exact ⟨hkeeps.refers href, by rw [hkeeps.object? href ho', ← ho, ho']⟩

theorem spares (hk : Remains p kept m₀ m) (hs : lib.Spares lists p kept f room m m') :
    Remains p kept m₀ m' := by
  intro r hr
  have ⟨href, ho⟩ := hk r hr
  have ⟨href', ho'⟩ := hs.kept hr href
  exact ⟨href', ho'.trans ho⟩

end Remains

theorem Works.refers {s : Store} {r : Ref} (hr : lib.Works lists τ s r) :
    s.Refers (τ.flatMap Slot.refs) r := by
  have hframe {e : FrameId} (he : .env e ∈ τ) : s.Refers (τ.flatMap Slot.refs) e.ref :=
    .root <| List.mem_flatMap.mpr ⟨_, he, List.mem_cons_self⟩
  cases hr
  case code hr => exact hr
  case frame he => exact hframe he
  case closure id hid => exact .root <| List.mem_flatMap.mpr ⟨_, hid, List.mem_cons_self⟩
  case list id he hf _ hv hrow hid => exact hrow.refers ((hframe he).holds hf hv) id hid

-- A procedure that always takes quiet steps only and allocates nothing is considerate.
theorem considerate_of_quiet {s : Step × Machine} (ho : ∀ s, Ordinary s f) (hc : p.cont.refs = [])
    (hg : s.2.Going s.1) (hp : s.2.global = p.global) (hσ : p.slots <:+ s.2.control.stack.slots)
    (hq : ∀ {m args q}, m.Going (.apply f) → m.ToApply args q → args.length = arity →
      ∃ level v, Passes level q.held q.slots 0 0 (.apply f) m q.cont (With v q)) :
    lib.Considerate lists p kept f room level arity vs s := by
  intro log m args q hrun hload hm _ ha _
  have hg₁ : m.Going (.apply f) := hg.of_over hrun.toOver
  obtain ⟨_, v, m', hs, hall, -, hm'⟩ := hq hg₁ hm ha
  have hglobal : q.global = p.global :=
    hm.global.symm.trans <| (hg.global_eq_of_over hrun.toOver).trans hp
  have hslots : p.slots ⊆ q.slots := by
    rw [← hm.slots]
    exact (hrun.toOver.suffix hσ).subset
  have hmem {σ : List Slot} (hσ : σ ⊆ q.slots) : σ.flatMap Slot.refs ⊆ q.held := fun r hr => by
    obtain ⟨slot, hmem, hr⟩ := List.mem_flatMap.mp hr
    exact Place.waiting_subset_held <| List.mem_cons_of_mem _ <| List.mem_append_right _ <|
      List.mem_flatMap.mpr ⟨slot, hσ hmem, hr⟩
  have hwait : p.waiting ⊆ q.held := by
    rw [Place.waiting, hc, List.nil_append]
    refine List.cons_subset.mpr ⟨?_, hmem hslots⟩
    rw [← hglobal]
    exact Place.waiting_subset_held List.mem_cons_self
  -- What is held is there, and so it is as it was.
  have hsame {r : Ref} (hr : m.image.store.Refers q.held r) :
      m'.image.store.object? r = m.image.store.object? r := by
    obtain ⟨o, ho⟩ := hg₁.exists_object (hr.mono fun _ hr => .root (hm.mem_roots hr)).reachable
    rw [hall.keeps.object? hr ho, ho]
  have hover := hs.toOver
  rw [← hm.slots, ← hm.cont] at hover
  refine ⟨m', ⟨hover, hm'.slots.trans hm.slots.symm⟩, hload.leaves hall.toLeaves hg₁.sound ?_, ho _,
    fun {τ r} hτ hr => hsame (hr.refers.mono fun r hr => .root (hmem ?_ hr)),
    fun {r} _ hr => ?_, ?_⟩
  · rw [hm.global]
    exact .root (Place.waiting_subset_held List.mem_cons_self)
  · rw [← hm.slots, hτ]
    exact List.subset_append_left _ _
  · have hh : ∀ r ∈ p.waiting, m.image.store.Refers q.held r := fun r hr => .root (hwait hr)
    exact ⟨(hall.keeps.mono hh).refers hr, hsame (hr.mono hh)⟩
  · have := hall.room
    omega

-- It makes no difference in which environment the caller is.
theorem Considerate.inside {s : Step × Machine}
    (hf : lib.Considerate lists p kept f room level arity vs s) (e : FrameId) :
    lib.Considerate lists { p with env := e } kept f room level arity vs s := by
  intro log m args q hc hload hm hq ha hl
  obtain ⟨m', hr, hs⟩ := hf hc hload hm hq ha hl
  exact ⟨m', hr, hs.loaded, hs.ordinary, hs.object?, hs.kept, hs.room⟩

-- A call comes back.
theorem Considerate.call {s : Step × Machine} {log : List Call} {args : List Value}
    (hf : lib.Considerate lists p kept f room level arity vs s)
    (hc : Calling f level p.slots s log (.apply f, m)) (hg : m.Going (.apply f))
    (hload : lib.Loaded m)
    (hm : m.ToApply args q) (hp : p.slots <:+ q.slots) (hq : q.slots.length = level)
    (ha : args.length = arity)
    (hl : args.getLast? = vs[log.length]?) : ∃ y m',
      Calling f level p.slots s (log ++ [⟨args, y⟩]) (q.cont, m') ∧ m'.Going q.cont ∧ m'.With y q ∧
      lib.Spares lists p kept f room m m' := by
  obtain ⟨m', hr, hs⟩ := hf hc hload hm hq ha hl
  have ⟨ids, hrow⟩ := hm.argl
  have hrun := hc.snoc (hm.slots ▸ hp) (hm.slots ▸ hq) hrow.toList? hr
  have hover := hr.toOver
  rw [hm.cont] at hrun hover
  exact ⟨_, m', hrun, hg.of_over hover, ⟨(hg.global_eq_of_over hover).trans hm.global, rfl,
    hr.slots.trans hm.slots⟩, hs⟩

end Library
end StepLisp
