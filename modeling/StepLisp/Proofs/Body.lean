import StepLisp.Proofs.Prelude.Procedure

namespace StepLisp

open Machine Relation

namespace Store

variable {s s' : Store} {held : List Ref} {v : Value} {es : List Value} {n : Nat}

theorem Row.uncons? {e e' : Value} {ids : List PairId} (h : s.Row v ids (e :: e' :: es) .nil) :
    ∃ j, s.uncons? v = some (e, .pair j) := by
  obtain ⟨i, _, _, rfl, hi, h⟩ := h.exists_cons
  obtain ⟨j, _, _, rfl, -⟩ := h.exists_cons
  exact ⟨j, uncons?_of_object? hi⟩

-- A form `(begin e₁ … eₙ)`.
def Wraps (s : Store) (v : Value) (es : List Value) : Prop :=
  ∃ id rest ids, v = .pair id ∧ s.object? id.ref = some (.cell ⟨.symbol .beginForm, rest⟩) ∧
    s.Row rest ids es .nil

namespace Wraps

theorem keeps (h : s.Wraps v es) (hv : s.Holds held v) (hk : s.Keeps held s') : s'.Wraps v es := by
  obtain ⟨id, rest, ids, rfl, ho, hr⟩ := h
  exact ⟨id, rest, ids, rfl, hk.object? (hv _ List.mem_cons_self) ho,
    hr.keeps (hv.parts ho).right hk⟩

theorem imp (h : s.Wraps v es) (hs : ∀ (id : PairId) (c : Cell),
    s.object? id.ref = some (.cell c) → s'.object? id.ref = some (.cell c)) : s'.Wraps v es := by
  obtain ⟨id, rest, ids, rfl, ho, hr⟩ := h
  exact ⟨id, rest, ids, rfl, hs _ _ ho, hr.imp fun id _ => hs id⟩

theorem gains (h : s.Wraps v es) (hg : s.Gains n s') : s'.Wraps v es :=
  h.imp fun _ _ => hg.object?

theorem of_cons {body : Value} {ids : List PairId} (hs : s.Sound) (hr : s.Row body ids es .nil)
    (hc : cons (.symbol .beginForm) body s = .ok v s') : s.Gains 1 s' ∧ s'.Wraps v es := by
  simp only [cons, Bind.bind, EStateM.bind] at hc
  cases ha : alloc (.symbol .beginForm) body s <;> rw [ha] at hc
  case error => cases hc
  case ok id s₁ =>
    cases hc
    obtain ⟨hn, hp⟩ := alloc_puts hs ha
    have hg : s.Gains 1 s' := .of_puts hn hp (room_alloc ha)
    exact ⟨hg, id, body, ids, rfl, (hp.object?_eq _).trans (if_pos rfl), hr.gains hg⟩

end Wraps

end Store

-- The place of an expression that others follow.
def Place.followed (p : Place) (rest : Value) : Place :=
  { p with cont := .beginNext, slots := .value rest :: .env p.env :: .step p.cont :: p.slots }

theorem Place.followed_above {p : Place} {rest : Value} : (p.followed rest).Above p :=
  .of_slots [.value rest] rfl rfl

-- The place of the test of a clause.
def Place.clause (p : Place) (body rest : Value) : Place :=
  { p with
    cont := .condNext
    slots := .value body :: .value rest :: .env p.env :: .step p.cont :: p.slots }

theorem Place.clause_above {p : Place} {body rest : Value} : (p.clause body rest).Above p :=
  .of_slots [.value body, .value rest] rfl rfl

namespace Machine

variable {m m' m₁ m₂ : Machine} {p q : Place} {b : Builtin} {e e' f v w args rest : Value}
variable {es vs : List Value} {ids : List PairId} {x : Symbol} {id : PairId} {next next' : Step}
variable {n fuel c h level : Nat}

-- Expressions

-- A call of a name that means a procedure which takes its operands as they are.
theorem Placed.form {held : List Ref} (hg : m.Going .eval) (hm : m.Placed p)
    (hheld : ∀ r ∈ held, m.image.store.Refers (m.roots .eval) r) (he : m.control.exp = .pair id)
    (ho : m.image.store.object? id.ref = some (.cell ⟨.symbol x, args⟩))
    (hr : m.image.store.Row args ids es .nil) (hx : m.image.store.Sees p.env x f)
    (hf : isSpecial m.image.store f = .ok true) (hh : p.slots.length + 3 ≤ h) :
    Passes level held p.slots 0 h .eval m (.apply f) fun m' => m'.ToApply es p ∧
      m'.control.argl = args := by
  refine (hg.steps nofun fun m₁ hc => ?_).passes hheld nofun
    fun m' hm' => hm'.left.slots ▸ List.suffix_refl _
  have hm₁ := hc.placed hm
  have hexp : m.image.store.Holds (m.roots .eval) (.pair id) := Store.holds_of_subset fun r hr =>
    mem_roots_of_control (by simp [Control.roots, he, hr])
  have henv : m.image.store.Refers (m.roots .eval) p.env.ref :=
    .root <| hm.mem_roots List.mem_cons_self
  have ho₁ := hc.keeps.object? (hexp _ List.mem_cons_self) ho
  have hx₁ := (hx.keeps henv hc.keeps).lookup?
  rw [← hm₁.env] at hx₁
  have hf₁ := isSpecial_keeps hf (hx.holds hg.sound henv) hc.keeps
  have hslots : (m₁.operated f args).control.stack.slots =
      .value args :: .env p.env :: .step p.cont :: p.slots := by
    simp [operated, Control.pushed, Stack.push, hm₁.env, hm₁.cont, hm₁.slots]
  obtain ⟨m', hop, hg', hi, hm', hargl⟩ :=
    evalOperator_of_special (m := m₁.operated f args) hm₁.global rfl hslots hc.keeps.sound hf₁
  refine ⟨m', ?_, ⟨hg'.gains, hg'.world, ?_⟩, ⟨hm', ids, ?_⟩, hargl⟩
  · show eval m₁ = _
    rw [eval_eq (hc.control ▸ he) (Store.car_of_object? ho₁) hx₁, Store.cdr_of_object? ho₁]
    exact hop
  · have hd := hm₁.slots ▸ m₁.control.stack.depth_eq
    have hw := hg'.highWater
    simp only [operated, Control.pushed, Stack.push] at hw
    omega
  · rw [hargl, hi]
    exact hr.keeps (hexp.parts ho).right hc.keeps

-- About to evaluate the first of some expressions, with the others to follow.
inductive InTurn : List Value → Place → Machine → Prop
  | last {e : Value} {p : Place} {m : Machine} : m.Placed p → m.control.exp = e → InTurn [e] p m
  | more {e e' rest : Value} {es : List Value} {ids : List PairId} {p : Place} {m : Machine} :
    m.Placed (p.followed rest) → m.control.exp = e →
    m.image.store.Row rest ids (e' :: es) .nil → InTurn (e :: e' :: es) p m

theorem InTurn.suffix (hm : m.InTurn es p) : p.slots <:+ m.control.stack.slots := by
  cases hm
  case last _ hm => exact hm.slots ▸ List.suffix_refl _
  case more hm => exact hm.slots ▸ Place.followed_above.slots

-- The form itself.
theorem ToApply.sequence (hb : b.run = Machine.sequence) (hg : m.Going (.apply b.value))
    (hm : m.ToApply (e :: es) p) (hl : p.slots.length ≠ level) (hh : p.slots.length + 3 ≤ h) :
    Passes level p.held p.slots 0 h (.apply b.value) m .eval (InTurn (e :: es) p) := by
  refine (hg.steps nofun fun m₁ hc => ?_).passes (fun r hr => .root <| hm.mem_roots hr)
    (hm.toPlaced.not_appliesAt hl) fun m' hm' => hm'.suffix
  have hm₁ := hc.toApply hm
  have hs := hc.keeps.sound
  have ⟨ids, hrow⟩ := hm₁.argl
  obtain ⟨i, rest, ids, hargl, ho, hrest⟩ := hrow.exists_cons
  have hun : m₁.image.store.uncons? (.pair i) = some (e, rest) := Store.uncons?_of_object? ho
  have hstep : step (.apply b.value) m₁ = Machine.sequence m₁ := by rw [step_value, hb]
  cases hrest
  case nil =>
    refine ⟨{ m₁ with control := { m₁.control with exp := e } }, ?_,
      ⟨.refl hs, rfl, Nat.le_max_left _ _⟩, .last ⟨hm₁.global, hm₁.env, hm₁.cont, hm₁.slots⟩ rfl⟩
    rw [hstep, Machine.sequence, argl_bind_eq, hargl, query_bind_eq, hun]
    rfl
  case cons j e' rest' ids es ho' hrest =>
    let c := ((m₁.control.pushed (.step m₁.control.cont)).pushed (.env m₁.control.env)).pushed
      (.value (.pair j))
    refine ⟨{ m₁ with control := { c with exp := e, cont := .beginNext } }, ?_, ⟨.refl hs, rfl, ?_⟩,
      .more ⟨hm₁.global, hm₁.env, rfl, ?_⟩ rfl (.cons ho' hrest)⟩
    · rw [hstep, Machine.sequence, argl_bind_eq, hargl, query_bind_eq, hun]
      rfl
    · have hd := hm₁.slots ▸ m₁.control.stack.depth_eq
      simp only [c, Control.pushed, Stack.push]
      omega
    · simp [c, Control.pushed, Stack.push, hm₁.env, hm₁.cont, hm₁.slots, Place.followed]

-- An expression has been evaluated, and its value is of no interest.
theorem With.discard (hg : m.Going .beginNext) (hm : m.With v (p.followed rest))
    (hr : m.image.store.Row rest ids (e :: es) .nil) (hh : p.slots.length + 3 ≤ h) :
    Steps .beginNext m 0 h .eval (InTurn (e :: es) p) := by
  refine hg.steps nofun fun m₁ hc => ?_
  have hm₁ := hc.value hm
  have hs := hc.keeps.sound
  have hr₁ := hr.keeps (Store.holds_of_subset fun r hr => hm.mem_roots rfl <|
    Place.refs_subset_waiting (v := rest) (by simp [Place.followed]) hr) hc.keeps
  have hslots : m₁.control.stack.slots = .value rest :: .env p.env :: .step p.cont :: p.slots :=
    hm₁.slots
  cases hr₁
  case cons i rest ids ho hrest =>
    have hun : m₁.image.store.uncons? (.pair i) = some (e, rest) := Store.uncons?_of_object? ho
    cases hrest
    case nil =>
      refine ⟨{ m₁ with control := { m₁.control with
        env := p.env, cont := p.cont, stack := .ofSlots p.slots, exp := e } }, ?_,
        ⟨.refl hs, rfl, Nat.le_max_left _ _⟩, .last ⟨hm₁.global, rfl, rfl, rfl⟩ rfl⟩
      show beginNext m₁ = _
      rw [beginNext, onControl_bind_eq (Control.popValue_eq hslots),
        onControl_bind_eq (Control.peekEnv_eq rfl)]
      simp only [Bind.bind, EStateM.bind, setEnv, query, hun]
      rfl
    case cons j e' rest' ids es ho' hrest =>
      let c := { m₁.control with
        stack := .ofSlots (.env p.env :: .step p.cont :: p.slots)
        env := p.env }
      let m₂ :=
        { m₁ with control := { c.pushed (.value (.pair j)) with exp := e, cont := .beginNext } }
      have hm₂ : m₂.Placed (p.followed (.pair j)) := ⟨hm₁.global, rfl, rfl, rfl⟩
      refine ⟨m₂, ?_, ⟨.refl hs, rfl, ?_⟩, .more hm₂ rfl (.cons ho' hrest)⟩
      · show beginNext m₁ = _
        rw [beginNext, onControl_bind_eq (Control.popValue_eq hslots),
          onControl_bind_eq (Control.peekEnv_eq rfl)]
        simp only [Bind.bind, EStateM.bind, setEnv, query, hun]
        rfl
      · simp only [m₂, c, Control.pushed, Stack.push, Stack.ofSlots, List.length_cons]
        omega

-- Runs

-- An expression comes to a value on the stack it was begun on, and a step goes on with it.
structure Yields (next : Step) (m m' : Machine) : Prop where
  toOver : Over m.control.stack.slots (.eval, m) (next, m')
  slots : m'.control.stack.slots = m.control.stack.slots

-- So one expression after the other has its turn.
inductive Next (p : Place) : List Value × Machine → List Value × Machine → Prop
  | intro {e e' : Value} {es : List Value} {m m₁ m' : Machine} : m.InTurn (e :: e' :: es) p →
    Yields .beginNext m m₁ → Quiet (.beginNext, m₁) (.eval, m') → m'.InTurn (e' :: es) p →
    Next p (e :: e' :: es, m) (e' :: es, m')

-- Every expression but the last comes to a value when it has its turn, and leaves the list of those
-- that follow it alone.
def Responsive (p : Place) (s : List Value × Machine) : Prop :=
  ∀ e e' es m rest ids, ReflTransGen (Next p) s (e :: e' :: es, m) → m.Placed (p.followed rest) →
    m.image.store.Row rest ids (e' :: es) .nil →
    ∃ m', Yields .beginNext m m' ∧ m'.image.store.Row rest ids (e' :: es) .nil

theorem Next.length {s s' : List Value × Machine} (hn : ReflTransGen (Next p) s s') :
    s'.1.length ≤ s.1.length ∧ (s'.1.length = s.1.length → s' = s) := by
  induction hn
  case refl => exact ⟨Nat.le_refl _, fun _ => rfl⟩
  case tail hn hi =>
    obtain ⟨-, -, -, -⟩ := hn
    simp only [List.length_cons] at hi ⊢
    exact ⟨by omega, by omega⟩

theorem Next.toOver {s s' : List Value × Machine} (hn : ReflTransGen (Next p) s s') :
    Over p.slots (.eval, s.2) (.eval, s'.2) := by
  induction hn
  case refl => exact .refl
  case tail hn hi =>
    obtain ⟨hm, hd, hq, hm'⟩ := hn
    exact (hi.trans (hd.toOver.mono hm.suffix)).tail ⟨hq.turn, hm'.suffix⟩

theorem InTurn.exists_last (hg : m.Going .eval) (hm : m.InTurn (e :: es) p)
    (hr : Responsive p (e :: es, m)) : ∃ m', ReflTransGen (Next p) (e :: es, m)
      ([(e :: es).getLast nofun], m') ∧ m'.InTurn [(e :: es).getLast nofun] p := by
  induction es generalizing e m
  case nil => exact ⟨m, .refl, hm⟩
  case cons e' es hi =>
    obtain ⟨rest, ids, hp, hrow⟩ : ∃ rest ids, m.Placed (p.followed rest) ∧
        m.image.store.Row rest ids (e' :: es) .nil := by
      cases hm
      case more hrow hm => exact ⟨_, _, hm, hrow⟩
    have ⟨m₁, hd, hrow₁⟩ := hr e e' es m rest ids .refl hp hrow
    have hg₁ : m₁.Going .beginNext := hg.of_over hd.toOver
    have hw : m₁.With m₁.control.val (p.followed rest) :=
      ⟨(hg.global_eq_of_over hd.toOver).trans hp.global, rfl, hd.slots.trans hp.slots⟩
    have ⟨m₂, hq, _, hg₂, hm₂⟩ := hw.discard hg₁ hrow₁ (Nat.le_refl _)
    have hn : Next p (e :: e' :: es, m) (e' :: es, m₂) := .intro hm hd hq hm₂
    have ⟨m', hrun, hlast⟩ := hi hg₂ hm₂ fun _ _ _ _ _ _ h => hr _ _ _ _ _ _ (.head hn h)
    exact ⟨m', .head hn hrun, hlast⟩

-- A number before the last expression comes to a value at once.
theorem InTurn.responsive {i : Int64} (hg : m.Going .eval) (hm : m.InTurn [.int i, e] p) :
    Responsive p ([.int i, e], m) := by
  intro e₁ e₂ es m₁ rest ids hrun hp hr
  have ⟨hle, heq⟩ := Next.length hrun
  simp only [List.length_cons, List.length_nil] at hle heq
  have hes : es = [] := List.length_eq_zero_iff.mp (by omega)
  subst hes
  cases heq rfl
  have hexp : m.control.exp = .int i := by
    cases hm
    assumption
  have hstep : Steps .eval m 0 0 .beginNext (With (.int i) (p.followed rest)) := by
    refine hg.steps nofun fun m₁ hc => ?_
    have hp₁ := hc.placed hp
    refine ⟨{ m₁ with control := { m₁.control with val := .int i } }, ?_,
      ⟨.refl hc.keeps.sound, rfl, Nat.le_max_left _ _⟩, hp₁.global, rfl, hp₁.slots⟩
    have hcont : m₁.control.cont = .beginNext := hp₁.cont
    have hexp₁ : m₁.control.exp = .int i := hc.control ▸ hexp
    rw [← hcont]
    exact eval_eq_deliver (by rw [hexp₁]; rfl)
  obtain ⟨m', hq, ha, -, hm'⟩ := hstep
  refine ⟨m', ⟨.single ⟨hq.turn, ?_⟩, hm'.slots.trans hp.slots.symm⟩, hr.keeps ?_ ha.keeps⟩
  · rw [hm'.slots, hp.slots]
  · exact Store.holds_of_subset fun r hr => mem_roots_of_slots <| hp.slots ▸
      List.mem_flatMap.mpr ⟨.value rest, by simp [Place.followed], hr⟩

-- A machine goes through expressions at a place: quiet steps lead to the first one, and if they all
-- come to values, then so does the last one have its turn.
def Sequences (es : List Value) (p : Place) (s : Step × Machine) : Prop :=
  ∃ m, Stretch (p.slots.length + 1) p.slots s (.eval, m) ∧ m.InTurn es p ∧
    (Responsive p (es, m) → ∃ e m', es.getLast? = some e ∧
      ReflTransGen (Next p) (es, m) ([e], m') ∧ m'.InTurn [e] p ∧ Over p.slots s (.eval, m'))

theorem Passes.sequences {held : List Ref}
    (hm : Passes (p.slots.length + 1) held p.slots c h next m .eval (InTurn (e :: es) p)) :
    Sequences (e :: es) p (next, m) := by
  obtain ⟨m₁, hs, -, hg, hm₁⟩ := hm
  refine ⟨m₁, hs, hm₁, fun hr => ?_⟩
  have ⟨m', hrun, hlast⟩ := hm₁.exists_last hg hr
  exact ⟨_, m', List.getLast?_eq_some_getLast _, hrun, hlast, hs.toOver.trans (Next.toOver hrun)⟩

-- Forms

theorem Placed.sequences (hg : m.Going .eval) (hm : m.Placed p)
    (hw : m.image.store.Wraps m.control.exp (e :: es)) (hb : b = .begin ∨ b = .do)
    (hx : m.image.store.Sees p.env .beginForm b.value) :
    Passes (p.slots.length + 1) p.held p.slots 0 (p.slots.length + 3) .eval m .eval
      (InTurn (e :: es) p) := by
  obtain ⟨id, rest, ids, he, ho, hr⟩ := hw
  have hform : b.isForm = true ∧ b.run = Machine.sequence := by
    rcases hb with rfl | rfl <;> exact ⟨rfl, rfl⟩
  refine (hm.form hg (fun r hr => .root <| hm.mem_roots hr) he ho hr hx
    ((isSpecial_value _).trans (congrArg _ hform.left)) (Nat.le_refl _)).bind 0
    (fun m₁ _ hg₁ hm₁ => ?_) (Nat.le_refl _)
  exact hm₁.left.sequence hform.right hg₁ (by omega) (Nat.le_refl _)

-- Parameters are bound in the new frame and nowhere else.
theorem exists_withFrame {frame : FrameId} {fr : Frame} {params : Value}
    (hf : m.image.store.frame frame = .ok fr)
    (hb : bindParamsFrom frame fuel params args m = .ok () m') :
    ∃ g, m' = m.withFrame frame g ∧ g.parent = fr.parent := by
  induction fuel generalizing params args m fr
  all_goals cases params
  case zero.nil | succ.nil =>
    rw [bindParamsFrom] at hb
    cases args
    case nil =>
      cases hb
      exact ⟨fr, (withFrame_self hf).symm, rfl⟩
    all_goals cases hb
  case zero.symbol | succ.symbol =>
    rw [bindParamsFrom, define_eq_withFrame hf] at hb
    cases hb
    exact ⟨_, rfl, rfl⟩
  case succ.pair fuel hi id =>
    simp only [bindParamsFrom, query, Bind.bind, EStateM.bind] at hb
    cases hc : m.image.store.car id <;> rw [hc] at hb
    case symbol x =>
      simp only at hb
      split at hb
      case isTrue =>
        simp only [query, EStateM.bind] at hb
        generalize m.image.store.uncons? (m.image.store.cdr id) = parts at hb
        obtain _ | ⟨⟨⟩, ⟨⟩⟩ := parts
        case some.symbol.nil =>
          simp only [define_eq_withFrame hf] at hb
          cases hb
          exact ⟨_, rfl, rfl⟩
        all_goals cases hb
      case isFalse =>
        cases args
        case pair j =>
          simp only [query, EStateM.bind, Store.uncons?, define_eq_withFrame hf] at hb
          have hf' : (m.withFrame frame (fr.define x (m.image.store.car j))).image.store.frame
            frame =
              .ok (fr.define x (m.image.store.car j)) := by
            rw [withFrame, Store.frame_setFrame hf, if_pos rfl]
          obtain ⟨g, hm', hp⟩ := hi hf' hb
          exact ⟨g, hm'.trans withFrame_withFrame, hp⟩
        all_goals cases hb
    all_goals cases hb
  all_goals cases hb

-- A closure has been entered: its body is next, in a new frame.
structure Entered (p : Place) (c : Closure) (m m₁ : Machine) : Prop
    extends Placed { p with env := m₁.control.env } m₁ where
  body : m₁.control.exp = c.body
  fresh : m.image.store.object? m₁.control.env.ref = none
  frame : ∃ f, m₁.image.store.frame m₁.control.env = .ok f ∧
    f.parent = some (if c.special then p.env else c.env)

theorem applyClosure_entered {k : ClosureId} {cl : Closure} (hs : m.image.store.Sound)
    (hm : m.Placed p) (ho : m.image.store.object? k.ref = some (.closure cl))
    (ha : applyClosure k m = .ok next m₁) :
    next = .eval ∧ Goes 0 0 m m₁ ∧ Entered p cl m m₁ := by
  let e := if cl.special then p.env else cl.env
  have ⟨frame, s, halloc, hnone, hputs⟩ := m.image.store.allocFrame_puts (some e) hs
  have hroom : s.room + 0 = m.image.store.room := by
    cases halloc
    rfl
  have hframe : s.frame frame = .ok { parent := some e } :=
    Store.frame_of_object? <| (hputs.object?_eq _).trans (if_pos rfl)
  let m₂ := { m with image := { m.image with store := s } }
  rw [applyClosure_eq (Store.closure_of_object? ho), hm.env, enter_eq halloc] at ha
  simp only [enterFor, Bind.bind, EStateM.bind] at ha
  cases hb : bindParamsFrom frame s.totalCells cl.params m.control.argl m₂ <;> rw [hb] at ha
  case error => cases ha
  case ok m₃ =>
    cases ha
    obtain ⟨g, rfl, hp⟩ := exists_withFrame (m := m₂) hframe hb
    have hgain : m.image.store.Gains 0 (s.setFrame frame g) :=
      .of_puts hnone (hputs.trans (Store.setFrame_puts hputs.sound hframe)) hroom
    refine ⟨rfl, ⟨hgain, rfl, Nat.le_max_left _ _⟩, ⟨hm.global, rfl, hm.cont, hm.slots⟩, rfl, hnone,
      g, ?_, hp⟩
    show (s.setFrame frame g).frame frame = _
    rw [Store.frame_setFrame hframe, if_pos rfl]

-- A procedure with several body expressions is applied.
theorem Placed.call_sequences {k : ClosureId} {cl : Closure} (hg : m.Going (.apply (.closure k)))
    (hm : m.Placed p) (ho : m.image.store.object? k.ref = some (.closure cl))
    (hw : m.image.store.Wraps cl.body (e :: es)) (hb : b = .begin ∨ b = .do)
    (ha : step (.apply (.closure k)) (m.countStep.collectBefore (.apply (.closure k))) =
      .ok next m₁)
    (hx : m₁.image.store.Sees m₁.control.env .beginForm b.value) :
    next = .eval ∧ Entered p cl (m.countStep.collectBefore (.apply (.closure k))) m₁ ∧
      Sequences (e :: es) { p with env := m₁.control.env } (.apply (.closure k), m) := by
  have hc := hg.cleared
  have hk : k.ref ∈ m.roots (.apply (.closure k)) := List.mem_append_left _ List.mem_cons_self
  have ho₁ := hc.keeps.object? (.root hk) ho
  obtain ⟨rfl, hgoes, hent⟩ := applyClosure_entered hc.keeps.sound (hc.placed hm) ho₁ ha
  have hbody : m.image.store.Holds (m.roots (.apply (.closure k))) cl.body := fun r hr =>
    .step (.root hk) ho (by simp [Object.refs, Closure.refs, hr])
  have hw₁ := (hw.keeps hbody hc.keeps).gains hgoes.gains
  let q := { p with env := m₁.control.env }
  have hlevel : ¬AppliesAt (p.slots.length + 1) (.apply (.closure k), m) :=
    hm.not_appliesAt (by omega)
  have hfirst : Passes (q.slots.length + 1) [] q.slots 0 (q.slots.length + 3)
    (.apply (.closure k)) m
      .eval (Eq m₁) := by
    refine (hg.steps_of_eq (fun h => by cases h) ha (hgoes.mono (Nat.zero_le _)) rfl).passes
      (List.forall_mem_nil _)
      hlevel ?_
    rintro _ rfl
    exact hent.slots ▸ List.suffix_refl _
  refine ⟨rfl, hent, Passes.sequences (p := q) <|
    hfirst.bind 0 (fun m' _ hg' h => ?_) (Nat.le_refl _)⟩
  subst h
  exact (hent.toPlaced.sequences hg' (hent.body ▸ hw₁) hb hx).mono (List.suffix_refl _)
    (List.forall_mem_nil _) (Nat.le_refl _) (Nat.le_refl _)

-- The test of a clause with several body expressions has come out.
theorem With.wraps {body : Value} (hg : m.Going .condNext) (hm : m.With v (p.clause body rest))
    (hv : v.isNil = false) (hr : m.image.store.Row body ids (e :: e' :: es) .nil)
    (hroom : 1 ≤ m.image.store.room) :
    Passes level p.held p.slots 1 h .condNext m .eval fun m' => m'.Placed p ∧
      m'.image.store.Wraps m'.control.exp (e :: e' :: es) := by
  refine (hg.steps (fun h => by cases h) fun m₁ hc => ?_).passes
    (fun r hr => .root <| hm.mem_roots rfl <| Place.clause_above.held hr) (by rintro ⟨⟨_, ⟨⟩⟩, -⟩)
    fun m' hm' => hm'.left.slots ▸ List.suffix_refl _
  have hm₁ := hc.value hm
  have hr₁ := hr.keeps (Store.holds_of_subset fun r hr => hm.mem_roots rfl <|
    Place.refs_subset_waiting (v := body) (by simp [Place.clause]) hr) hc.keeps
  have hroom₁ := hc.room
  obtain ⟨i, s, ha⟩ := Store.alloc_of_hasRoom (a := .symbol .beginForm) (b := body)
    (Store.hasRoom_of_room (s := m₁.image.store) (by omega))
  have hcons : Store.cons (.symbol .beginForm) body m₁.image.store = .ok (.pair i) s := by
    simp only [Store.cons, Bind.bind, EStateM.bind, ha, pure, EStateM.pure]
  obtain ⟨hgain, hw⟩ := Store.Wraps.of_cons hc.keeps.sound hr₁ hcons
  let c := { m₁.control with env := p.env, cont := p.cont, stack := .ofSlots p.slots }
  refine ⟨{ m₁ with image := { m₁.image with store := s }, control := { c with exp := .pair i } },
    ?_,
    ⟨hgain, rfl, Nat.le_max_left _ _⟩, ⟨hm₁.global, rfl, rfl, rfl⟩, hw⟩
  obtain ⟨j, hun⟩ := hr₁.uncons?
  show condNext m₁ = _
  rw [condNext, onControl_bind_eq (Control.popValue_eq hm₁.slots),
    onControl_bind_eq (Control.popValue_eq rfl), val_bind_eq]
  have hval : m₁.control.val.isNil = false := hm₁.val ▸ hv
  simp only [hval, Bool.false_eq_true, if_false]
  rw [onControl_bind_eq (Control.restore_eq rfl)]
  simp only [query, Bind.bind, EStateM.bind, hun]
  exact onStore_bind_eq (m := { m₁ with control := c }) hcons

theorem With.clause_sequences {body : Value} (hg : m.Going .condNext)
    (hm : m.With v (p.clause body rest)) (hv : v.isNil = false)
    (hr : m.image.store.Row body ids (e :: e' :: es) .nil) (hroom : 1 ≤ m.image.store.room)
    (hb : b = .begin ∨ b = .do) (hx : m.image.store.Sees p.env .beginForm b.value) :
    Sequences (e :: e' :: es) p (.condNext, m) := by
  refine Passes.sequences (c := 1) (h := p.slots.length + 3) <| (hm.wraps hg hv hr hroom).bind 0
    (fun m₁ ha hg₁ hm₁ => ?_) (Nat.le_refl _)
  exact hm₁.left.sequences hg₁ hm₁.right hb (hx.keeps (.root List.mem_cons_self) ha.keeps)

-- Where such bodies come from

theorem eq_of_checkParamsFrom (hc : checkParamsFrom fuel v m = .ok () m') : m' = m := by
  induction fuel generalizing v
  all_goals cases v
  case succ.pair fuel hi id =>
    simp only [checkParamsFrom, query, Bind.bind, EStateM.bind] at hc
    cases hx : m.image.store.car id <;> rw [hx] at hc
    case symbol => exact hi hc
    all_goals cases hc
  all_goals
    cases hc
    try rfl

theorem exists_of_onStore_bind {α β : Type} {y : Act Store α} {g : α → Run β} {r : β}
    (hb : ((liftM y : Run α) >>= g) m = .ok r m') :
    ∃ a s, y m.image.store = .ok a s ∧ g a { m with image.store := s } = .ok r m' := by
  simp only [Bind.bind, EStateM.bind] at hb
  cases hy : y m.image.store
  case ok a s =>
    rw [onStore_of_ok hy] at hb
    exact ⟨a, s, rfl, hb⟩
  case error =>
    simp only [liftM, monadLift, MonadLift.monadLift, onImage, Image.onStore, hy] at hb
    cases hb

-- Several body expressions are wrapped.
theorem makeClosure_wraps {params body : Value} {special : Bool} (hs : m.image.store.Sound)
    (hr : m.image.store.Row body ids (e :: e' :: es) .nil)
    (hk : makeClosure params body special m = .ok v m') : ∃ (k : ClosureId) (w : Value) (s : Store),
      v = .closure k ∧ m' = { m with image.store := s } ∧ m.image.store.Gains 1 s ∧
      s.object? k.ref = some (.closure ⟨params, w, m.control.env, special⟩) ∧
      s.Wraps w (e :: e' :: es) := by
  obtain ⟨j, hun⟩ := hr.uncons?
  cases hc : checkParams params m
  case error =>
    simp only [makeClosure, Bind.bind, EStateM.bind, hc] at hk
    cases hk
  case ok m₀ =>
    cases eq_of_checkParamsFrom hc
    have heq : makeClosure params body special m =
        ((liftM (Store.cons (.symbol .beginForm) body) : Run Value) >>= fun w => env >>= fun e =>
          liftM (Store.allocClosure ⟨params, w, e, special⟩)) m := by
      simp only [makeClosure, Bind.bind, EStateM.bind, hc, query, hun]
    rw [heq] at hk
    obtain ⟨w, s, ha, hk⟩ := exists_of_onStore_bind hk
    obtain ⟨hg, hw⟩ := Store.Wraps.of_cons hs hr ha
    obtain ⟨k, s', hcl, hg', ho⟩ :=
      s.allocClosure_gains ⟨params, w, m.control.env, special⟩ hg.sound
    cases hk.symm.trans (onStore_of_ok hcl)
    exact ⟨k, w, s', rfl, rfl, hg.trans hg', ho, hw.gains hg'⟩

-- A form that makes a procedure. Some give it a name.
inductive Maker
  | lambda
  | define (x : Symbol)
  | special (x : Symbol)

namespace Maker

def builtin : Maker → Builtin
  | lambda => .lambda
  | define _ => .define
  | special _ => .special

def isSpecial : Maker → Bool
  | special _ => true
  | _ => false

-- The form's operands ask for a procedure with these parameters and this body.
def Asks (s : Store) (args params body : Value) : Maker → Prop
  | lambda => s.uncons? args = some (params, body)
  | define x | special x => ∃ i, s.uncons? args = some (.pair i, body) ∧
    s.uncons? (.pair i) = some (.symbol x, params)

-- Where the procedure can be found.
def Gives (k : ClosureId) (e : FrameId) (m : Machine) : Maker → Prop
  | lambda => m.control.val = .closure k
  | define x | special x => ∃ f, m.image.store.frame e = .ok f ∧ f.get? x = some (.closure k)

end Maker

theorem atLeastTwo_eq {j : PairId} (ha : m.image.store.uncons? args = some (v, .pair j)) :
    atLeastTwo b args m = .ok (v, .pair j) m := by
  rw [atLeastTwo, query_bind_eq, ha]
  rfl

theorem lambda_wraps {params body : Value} (hs : m.image.store.Sound)
    (ha : m.image.store.uncons? m.control.argl = some (params, body))
    (hr : m.image.store.Row body ids (e :: e' :: es) .nil)
    (hstep : Machine.lambda m = .ok next m') :
    ∃ (k : ClosureId) (w : Value), m'.image.store.object? k.ref =
        some (.closure ⟨params, w, m.control.env, false⟩) ∧
      m'.image.store.Wraps w (e :: e' :: es) ∧ m'.control.val = .closure k := by
  obtain ⟨j, rfl⟩ : ∃ j, body = .pair j := by cases hr; exact ⟨_, rfl⟩
  rw [Machine.lambda, argl_bind_eq] at hstep
  simp only [Bind.bind, EStateM.bind, atLeastTwo_eq ha] at hstep
  cases hk : makeClosure params (.pair j) false m <;> rw [hk] at hstep
  case error => cases hstep
  case ok v m₁ =>
    obtain ⟨k, w, s, rfl, rfl, -, ho, hw⟩ := makeClosure_wraps hs hr hk
    cases hstep
    exact ⟨k, w, ho, hw, rfl⟩

theorem definition_wraps {params body : Value} {special : Bool} {k : Step} {i : PairId}
    (hs : m.image.store.Sound) (ha : m.image.store.uncons? m.control.argl = some (.pair i, body))
    (ht : m.image.store.uncons? (.pair i) = some (.symbol x, params))
    (hr : m.image.store.Row body ids (e :: e' :: es) .nil)
    (hstep : definition b special k m = .ok next m') :
    ∃ (k : ClosureId) (w : Value), m'.image.store.object? k.ref =
        some (.closure ⟨params, w, m.control.env, special⟩) ∧
      m'.image.store.Wraps w (e :: e' :: es) ∧
      ∃ f, m'.image.store.frame m.control.env = .ok f ∧ f.get? x = some (.closure k) := by
  obtain ⟨j, rfl⟩ : ∃ j, body = .pair j := by cases hr; exact ⟨_, rfl⟩
  rw [definition, argl_bind_eq] at hstep
  simp only [Bind.bind, EStateM.bind, atLeastTwo_eq ha, query, ht, symbolOperand, pure,
    EStateM.pure] at hstep
  cases hk : makeClosure params (.pair j) special m <;> rw [hk] at hstep
  case error => cases hstep
  case ok v m₁ =>
    obtain ⟨k, w, s, rfl, rfl, hg, ho, hw⟩ := makeClosure_wraps hs hr hk
    have hdef : define x (.closure k) { m with image.store := s } =
      (liftM (Store.define m.control.env x (.closure k)) : Run Unit) { m with image.store := s } :=
        rfl
    simp only [hdef] at hstep
    cases hf : s.frame m.control.env
    case error =>
      simp only [liftM, monadLift, MonadLift.monadLift, onImage, Image.onStore, Store.define,
        hf] at hstep
      cases hstep
    case ok f =>
      rw [define_eq_withFrame hf] at hstep
      cases hstep
      have hp := Store.setFrame_puts (g := f.define x (.closure k)) hg.sound hf
      refine ⟨k, w, ?_, hw.imp fun id c hid => ?_, f.define x (.closure k), ?_, ?_⟩
      · exact (hp.object?_eq _).trans ((if_neg (fun h => by cases h)).trans ho)
      · exact (hp.object?_eq _).trans ((if_neg (fun h => by cases h)).trans hid)
      · exact (Store.frame_setFrame hf).trans (if_pos rfl)
      · exact Frame.get?_define.trans (if_pos rfl)

theorem Maker.wraps {mk : Maker} {params body : Value} (hs : m.image.store.Sound)
    (ha : mk.Asks m.image.store m.control.argl params body)
    (hr : m.image.store.Row body ids (e :: e' :: es) .nil)
    (hstep : step (.apply mk.builtin.value) m = .ok next m') :
    ∃ (k : ClosureId) (w : Value), m'.image.store.object? k.ref =
        some (.closure ⟨params, w, m.control.env, mk.isSpecial⟩) ∧
      m'.image.store.Wraps w (e :: e' :: es) ∧ mk.Gives k m.control.env m' := by
  rw [step_value] at hstep
  cases mk
  case lambda => exact lambda_wraps hs ha hr hstep
  case define =>
    have ⟨i, ha, ht⟩ := ha
    exact definition_wraps hs ha ht hr hstep
  case special =>
    have ⟨i, ha, ht⟩ := ha
    exact definition_wraps hs ha ht hr hstep

end Machine

-- The forms that make procedures wrap the body, to be taken apart when the procedure is applied; a
-- clause does so when it is chosen.
theorem bodies_in_turn (e e' : Value) (es : List Value) {b : Builtin} (hb : b = .begin ∨ b = .do) :
    (∀ (mk : Maker) (m m' : Machine) next params body ids, m.image.store.Sound →
      mk.Asks m.image.store m.control.argl params body →
      m.image.store.Row body ids (e :: e' :: es) .nil →
      step (.apply mk.builtin.value) m = .ok next m' → ∃ (k : ClosureId) (w : Value),
        m'.image.store.object? k.ref = some (.closure ⟨params, w, m.control.env, mk.isSpecial⟩) ∧
        m'.image.store.Wraps w (e :: e' :: es) ∧ mk.Gives k m.control.env m') ∧
    (∀ (m m₁ : Machine) p next (k : ClosureId) c, m.Going (.apply (.closure k)) → m.Placed p →
      m.image.store.object? k.ref = some (.closure c) →
      m.image.store.Wraps c.body (e :: e' :: es) →
      step (.apply (.closure k)) (m.countStep.collectBefore (.apply (.closure k))) = .ok next m₁ →
      m₁.image.store.Sees m₁.control.env .beginForm b.value →
      next = .eval ∧ Entered p c (m.countStep.collectBefore (.apply (.closure k))) m₁ ∧
        Sequences (e :: e' :: es) { p with env := m₁.control.env } (.apply (.closure k), m)) ∧
    ∀ (m : Machine) p v body rest ids, m.Going .condNext → m.With v (p.clause body rest) →
      v.isNil = false → m.image.store.Row body ids (e :: e' :: es) .nil →
      1 ≤ m.image.store.room → m.image.store.Sees p.env .beginForm b.value →
      Sequences (e :: e' :: es) p (.condNext, m) := by
  refine ⟨fun mk m m' next params body ids hs ha hr hstep => mk.wraps hs ha hr hstep, ?_, ?_⟩
  · intro m m₁ p next k c hg hm ho hw hstep hx
    exact hm.call_sequences hg ho hw hb hstep hx
  · intro m p v body rest ids hg hm hv hr hroom hx
    exact hm.clause_sequences hg hv hr hroom hb hx

-- A procedure with two body expressions is about to be applied, and its own scope says nothing
-- about the name that wraps them.
def appliesBody (m : Machine) : Bool :=
  match Stage.next^[5] (.reading (Reader.walk "((lambda (x) 1 x) 5)".toList) m) with
  | .running _ _ (.apply (.closure k)) m =>
    match m.image.store.object? k.ref,
      step (.apply (.closure k)) (m.countStep.collectBefore (.apply (.closure k))) with
    | some (.closure ⟨_, .pair i, _, _⟩), .ok _ m₁ =>
      match m.image.store.object? i.ref, m₁.image.store.frame m₁.control.env,
        m₁.image.store.frame m₁.global with
      | some (.cell ⟨.symbol y, rest⟩), .ok f, .ok g =>
        match m.image.store.toList? rest, g.get? .beginForm with
        | some [.int i, _], some (.builtin j) => y = .beginForm && i = 1 &&
          f.parent = some m₁.global && (f.get? .beginForm).isNone && g.parent.isNone &&
          j = ⟨Builtin.all.toList.idxOf .begin⟩
        | _, _ => false
      | _, _, _ => false
    | _, _ => false
  | _ => false

theorem bodies_in_turn_constant : ∃ rest n m k p x m',
    Reached (.running rest n (.apply (.closure k)) m) ∧ m.Placed p ∧
    m'.InTurn [x] { p with env := m'.control.env } ∧
    Sequences [.int 1, x] { p with env := m'.control.env } (.apply (.closure k), m) ∧
    Over p.slots (.apply (.closure k), m) (.eval, m') := by
  obtain ⟨m₀, hb, ht⟩ := exists_bare_of {} default {} appliesBody (by decide +kernel)
  unfold appliesBody at ht
  split at ht <;> try exact absurd ht Bool.false_ne_true
  case h_1 rest n k m hA =>
    split at ht <;> try exact absurd ht Bool.false_ne_true
    case h_1 params i e special next m₁ ho hstep =>
      split at ht <;> try exact absurd ht Bool.false_ne_true
      case h_1 y args f g hi hf hgl =>
        split at ht <;> try exact absurd ht Bool.false_ne_true
        case h_1 i' x j hargs hbegin =>
          simp only [Bool.and_eq_true, decide_eq_true_eq, Option.isNone_iff_eq_none] at ht
          obtain ⟨⟨⟨⟨⟨rfl, rfl⟩, hparent⟩, hnone⟩, htop⟩, rfl⟩ := ht
          have h₀ : Reached (.reading (Reader.walk "((lambda (x) 1 x) 5)".toList) m₀) :=
            reached_request (.bare hb) _
          have hr : Reached (.running rest n (.apply (.closure k)) m) := hA ▸ h₀.iterate 5
          have hg := going_of_reached hr
          let p : Place := ⟨m.global, m.control.env, m.control.cont, m.control.stack.slots⟩
          have hp : m.Placed p := ⟨rfl, rfl, rfl, rfl⟩
          have hbody : m.image.store.Holds (m.roots (.apply (.closure k))) (.pair i) := fun r hr =>
            .step (.root <| List.mem_append_left _ List.mem_cons_self) ho
              (by simp [Object.refs, Closure.refs, hr])
          obtain ⟨ids, hrow⟩ := hg.exists_row (hbody.parts hi).right hargs
          have hglobal : m₁.image.store.Sees m₁.global .beginForm Builtin.begin.value :=
            ⟨_, .last hgl htop,
              by rw [List.findSome?_cons, Store.binding?_of_frame hgl, hbegin]; rfl⟩
          obtain ⟨rfl, -, hseq⟩ :=
            (bodies_in_turn (.int 1) x [] (.inl rfl)).right.left m m₁ p next k _ hg hp
            ho ⟨i, args, ids, rfl, hi, hrow⟩ hstep (hglobal.child hf hparent hnone)
          have hrun := hseq
          obtain ⟨m₂, hs, hin, hrun⟩ := hrun
          have hg₂ : m₂.Going .eval := hg.of_over hs.toOver
          obtain ⟨_, m', ⟨⟩, -, hin', hover⟩ := hrun (hin.responsive hg₂)
          have henv : m'.control.env = m₁.control.env := by
            cases hin'
            case last h => exact h.env
          rw [← henv] at hseq hin'
          exact ⟨rest, n, m, k, p, x, m', hr, hp, hin', hseq, hover⟩

end StepLisp
