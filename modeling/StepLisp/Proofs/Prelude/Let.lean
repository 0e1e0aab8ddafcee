import StepLisp.Proofs.Operands
import StepLisp.Proofs.Prelude.Expanding
import StepLisp.Proofs.Prelude.Loading

namespace StepLisp

open Machine Library Relation

variable {lib : Library} {m m' : Machine} {p : Place} {b v : Value} {e : FrameId}
variable {held : List Ref} {h level spare : Nat} {ids : List PairId}
variable {es vs : List Value} {ds : List (Symbol × Value)}

-- The call is evaluated

-- One expression is a body, and so are several when they are wrapped.
def Store.IsBody (s : Store) (w : Value) (es : List Value) : Prop :=
  es = [w] ∨ 2 ≤ es.length ∧ s.Wraps w es

-- A procedure with these parameters and this body, made in the environment `e`.
def Store.IsProcedure (s : Store) (k : ClosureId) (xs : List Symbol) (body : List Value)
    (e : FrameId) :
    Prop :=
  ∃ ps w ids, s.object? k.ref = some (.closure ⟨ps, w, e, false⟩) ∧
    s.Row ps ids (xs.map .symbol) .nil ∧
    s.IsBody w body

theorem Store.IsProcedure.ordinary {s : Store} {k : ClosureId} {xs : List Symbol}
    (h : s.IsProcedure k xs es e) : Ordinary s (.closure k) := by
  obtain ⟨ps, w, ids, ho, -⟩ := h
  simp only [Ordinary, isSpecial, closure_of_object? ho]
  rfl

namespace Machine

theorem exists_makeClosure {params body u : Value} {is : List PairId} {xs : List Symbol}
    (hs : m.image.store.Sound) (hp : m.image.store.Row params is (xs.map .symbol) .nil)
    (hr : m.image.store.Row body ids (u :: es) .nil) (hroom : 1 ≤ m.image.store.room) :
    ∃ (k : ClosureId) (w : Value) (s : Store),
      makeClosure params body false m = .ok (.closure k) { m with image.store := s } ∧
      m.image.store.Gains (min es.length 1) s ∧
      s.object? k.ref = some (.closure ⟨params, w, m.control.env, false⟩) ∧
        s.IsBody w (u :: es) := by
  have hcheck := checkParams_of_row hp
  cases es
  case nil =>
    obtain ⟨j, _, _, rfl, hj, ⟨⟩⟩ := hr.exists_cons
    have hun : m.image.store.uncons? (.pair j) = some (u, .nil) := Store.uncons?_of_object? hj
    obtain ⟨k, s, ha, hg, ho⟩ :=
      m.image.store.allocClosure_gains ⟨params, u, m.control.env, false⟩ hs
    exact ⟨k, u, s, makeClosure_eq hcheck hun ha, hg, ho, .inl rfl⟩
  case cons u' es =>
    obtain ⟨j, hun⟩ := hr.uncons?
    obtain ⟨i, s, ha⟩ := Store.alloc_of_hasRoom (a := .symbol .beginForm) (b := body)
      (Store.hasRoom_of_room (s := m.image.store) hroom)
    have hcons : Store.cons (.symbol .beginForm) body m.image.store = .ok (.pair i) s := by
      simp only [Store.cons, Bind.bind, EStateM.bind, ha, pure, EStateM.pure]
    obtain ⟨hg, hw⟩ := Store.Wraps.of_cons hs hr hcons
    obtain ⟨k, s', hcl, hg', ho⟩ :=
      s.allocClosure_gains ⟨params, .pair i, m.control.env, false⟩ hg.sound
    have hmin : min (u' :: es).length 1 = 1 := by simp
    refine ⟨k, .pair i, s', ?_, ?_, ho, .inr ⟨by simp, hw.gains hg'⟩⟩
    · simp only [makeClosure, Bind.bind, EStateM.bind, hcheck, query, hun]
      refine (onStore_bind_eq hcons).trans ?_
      exact onStore_of_ok (m := { m with image.store := s }) hcl
    · rw [hmin]
      exact hg.trans hg'

-- A procedure is made of parameters and a body that are values.
theorem ToApply.abstracts {ps u : Value} {is : List PairId} {xs : List Symbol}
    (hg : m.Going (.apply Builtin.lambda.value)) (hm : m.ToApply (ps :: u :: es) p)
    (hps : m.image.store.Row ps is (xs.map .symbol) .nil) (hroom : 1 ≤ m.image.store.room)
    (hl : p.slots.length ≠ level) :
    Passes level (p.waiting ++ (ps :: u :: es).flatMap Value.refs) p.slots 1 h
      (.apply Builtin.lambda.value) m p.cont fun m' => ∃ k, m'.With (.closure k) p ∧
        m'.image.store.IsProcedure k xs (u :: es) p.env := by
  refine Passes.mono (c := min es.length 1) ?_ (List.suffix_refl _) (fun _ => .root) (by omega)
    (Nat.le_refl h)
  refine (hg.steps nofun fun m₁ hc => ?_).passes (fun r hr => hm.refers hr)
    (hm.toPlaced.not_appliesAt hl) ?_
  · have hm₁ := hc.toApply hm
    have hargs : m.image.store.Holds (m.roots (.apply Builtin.lambda.value)) ps := fun r hr =>
      hm.refers (List.mem_append_right _ (List.mem_append_left _ hr))
    have hps₁ := hps.keeps hargs hc.keeps
    have ⟨ids, hrow⟩ := hm₁.argl
    obtain ⟨i, rest, js, hargl, hi, hrest⟩ := hrow.exists_cons
    obtain ⟨j, -, -, rfl, -⟩ := hrest.exists_cons
    have hun : m₁.image.store.uncons? (.pair i) = some (ps, .pair j) := Store.uncons?_of_object? hi
    have hroom₁ := hc.room
    obtain ⟨k, w, s, hk, hgain, ho, hw⟩ := exists_makeClosure hc.keeps.sound hps₁ hrest (by omega)
    rw [hm₁.env] at ho
    refine ⟨{ m₁ with image.store := s, control := { m₁.control with val := .closure k } },
      ?_, ⟨hgain, rfl, Nat.le_max_left _ _⟩, k, ⟨hm₁.global, rfl, hm₁.slots⟩, ps, w, is, ho,
      hps₁.gains hgain, hw⟩
    rw [step_value, ← hm₁.cont]
    show Machine.lambda m₁ = _
    rw [Machine.lambda, argl_bind_eq, hargl]
    simp only [Bind.bind, EStateM.bind, atLeastTwo_eq hun, hk]
    rfl
  · rintro m' ⟨k, hm', -⟩
    exact hm'.slots ▸ List.suffix_refl _

-- `(lambda (x …) e …)` is evaluated.
theorem Placed.abstracts {x : Symbol} {u : Value} {xs : List Symbol} (hg : m.Going .eval)
    (hm : m.Placed p)
    (hx : m.image.store.Abstracts x m.control.exp (xs.map .symbol) (u :: es))
    (hsee : m.image.store.Sees p.env x Builtin.lambda.value) (hroom : 1 ≤ m.image.store.room)
    (hl : p.slots.length ≠ level) (hh : p.slots.length + 3 ≤ h) :
    Passes level (p.waiting ++ (u :: es).flatMap Value.refs) p.slots 1 h .eval m p.cont fun m' =>
      ∃ k, m'.With (.closure k) p ∧ m'.image.store.IsProcedure k xs (u :: es) p.env := by
  obtain ⟨_, is, ps, hop, hps⟩ := hx
  obtain ⟨j, rest, ks, hexp, hj, hrest⟩ := hop.exists_cons
  let held := p.waiting ++ (Value.pair j).refs
  have hop : m.image.store.Holds held (.pair j) :=
    Store.holds_of_subset (List.subset_append_right _ _)
  have hargs := (hrest.holds (hop.parts hj).right).left
  have hroots : ∀ r ∈ held, m.image.store.Refers (m.roots .eval) r := by
    refine fun r hr => .root ?_
    rcases List.mem_append.mp hr with hr | hr
    · exact hm.mem_roots (List.mem_cons_of_mem _ hr)
    · exact mem_roots_of_control (by simp [Control.roots, hexp, hr])
  have hkept : ∀ r ∈ p.waiting ++ (u :: es).flatMap Value.refs, m.image.store.Refers held r := by
    intro r hr
    rcases List.mem_append.mp hr with hr | hr
    · exact .root (List.mem_append_left _ hr)
    · obtain ⟨w, hw, hr⟩ := List.mem_flatMap.mp hr
      exact hargs w (List.mem_cons_of_mem _ hw) r hr
  refine ((hm.form hg hroots hexp hj hrest hsee (isSpecial_value _) hh).frame.mono
    (List.suffix_refl _) hkept
    (Nat.le_refl _) (Nat.le_refl h)).bind 1 (fun m₁ _ hg₁ hm₁ => ?_) (Nat.le_refl _)
  obtain ⟨⟨hm₁, -⟩, ha₁⟩ := hm₁
  have hps₁ := hps.keeps (hargs ps List.mem_cons_self) ha₁.keeps
  have hroom₁ := ha₁.room
  refine (hm₁.abstracts hg₁ hps₁ (by omega) hl).mono (List.suffix_refl _) (fun r hr => .root ?_)
    (Nat.le_refl _) (Nat.le_refl _)
  simp only [List.flatMap_cons, List.mem_append] at hr ⊢
  tauto

-- A call is about to evaluate its operands, the expressions of bindings. The procedure has the
-- names for parameters, and was made in the environment of the call.
structure Binding (ds : List (Symbol × Value)) (body : List Value) (p : Place) (k : ClosureId)
    (m : Machine) :
    Prop where
  operands : Operands (.closure k) p [] (ds.map Prod.snd) (.evalOperator, m)
  procedure : m.image.store.IsProcedure k (ds.map Prod.fst) body p.env

theorem Placed.binding {x : Symbol} {u : Value} (hg : m.Going .eval) (hm : m.Placed p)
    (hx : m.image.store.Expansion x m.control.exp ds (u :: es))
    (hsee : m.image.store.Sees p.env x Builtin.lambda.value) (hroom : 1 ≤ m.image.store.room)
    (hl : p.slots.length + 3 ≠ level) (hh : p.slots.length + 6 ≤ h) :
    Passes level (p.held ++ expressions ds (u :: es)) p.slots 1 h .eval m .evalOperator fun m' =>
      ∃ k, m'.Binding ds (u :: es) p k := by
  obtain ⟨_, op, hform, hop⟩ := hx
  obtain ⟨i, args, js, hexp, hi, hargs⟩ := hform.exists_cons
  have hi' : m.image.store.Holds (p.held ++ (Value.pair i).refs) (.pair i) :=
    Store.holds_of_subset (List.subset_append_right _ _)
  have hroots : ∀ r ∈ p.held ++ (Value.pair i).refs, m.image.store.Refers (m.roots .eval) r := by
    refine fun r hr => .root ?_
    rcases List.mem_append.mp hr with hr | hr
    · exact hm.mem_roots hr
    · exact mem_roots_of_control (by simp [Control.roots, hexp, hr])
  have hkept : ∀ r ∈ p.held ++ expressions ds (u :: es),
      m.image.store.Refers (p.held ++ (Value.pair i).refs) r := by
    intro r hr
    rcases List.mem_append.mp hr with hr | hr
    · exact .root (List.mem_append_left _ hr)
    · exact Store.Expansion.refers ⟨_, op, hform, hop⟩ (hexp ▸ hi') r hr
  obtain ⟨j, rfl⟩ := hop.exists_pair
  refine ((hm.operator hg hroots hexp hi (by omega)).frame.mono (List.suffix_refl _) hkept
    (Nat.le_refl _)
    (Nat.le_refl h)).bind 1 (fun m₁ _ hg₁ hm₁ => ?_) (Nat.le_refl _)
  obtain ⟨⟨hm₁, hexp₁⟩, ha₁⟩ := hm₁
  let q := p.operator args
  have hq : q.slots.length = p.slots.length + 3 := rfl
  have hup : p.held ⊆ q.waiting := Place.operator_above.held
  have hargs' : m₁.image.store.Holds (q.waiting ++ (u :: es).flatMap Value.refs) args :=
    Store.holds_of_subset fun _ hr => List.mem_append_left _
      (Place.refs_subset_waiting (v := args) (by simp [q, Place.operator]) hr)
  have hop₁ := hop.keeps (hi'.parts hi).left ha₁.keeps
  have hargs₁ := hargs.keeps (hi'.parts hi).right ha₁.keeps
  have hsee₁ := hsee.keeps (.root (List.mem_append_left _ List.mem_cons_self)) ha₁.keeps
  have hroom₁ := ha₁.room
  rw [← hexp₁, show ds.map (fun d => Value.symbol d.1) =
    (ds.map Prod.fst).map .symbol by simp] at hop₁
  refine ((hm₁.abstracts (p := q) hg₁ hop₁ hsee₁ (by omega) (by omega) (by omega)).frame.mono
    Place.operator_above.slots (fun r hr => ?_) (Nat.le_refl _) (Nat.le_refl h)).imp ?_
  · rcases List.mem_append.mp hr with hr | hr
    · exact .root (List.mem_append_left _ (hup hr))
    rcases List.mem_append.mp hr with hr | hr
    · obtain ⟨w, hw, hr⟩ := List.mem_flatMap.mp hr
      exact (hargs₁.holds hargs').left w hw r hr
    · exact .root (List.mem_append_right _ hr)
  · rintro m₂ ⟨⟨k, hm₂, hk⟩, ha₂⟩
    exact ⟨k, .first hm₂ (hargs₁.keeps hargs' ha₂.keeps) hk.ordinary, hk⟩

end Machine

-- The form itself

-- `(let ((x e) …) body …)`, where `x` stands for the name of the form.
def Store.IsLet (s : Store) (x : Symbol) (v : Value) (ds : List (Symbol × Value))
    (body : List Value) :
    Prop :=
  ∃ ids is b bs, s.Row v ids (.symbol x :: b :: body) .nil ∧ s.Row b is bs .nil ∧
    List.Forall₂ (fun b d => s.IsBinding b (.symbol d.1) d.2) bs ds

theorem Machine.Placed.enterLet (hl : lib.HasLet m)
    (hsc : m.image.store.Scope lib p.env lib.letBindings)
    (hg : m.Going .eval) (hm : m.Placed p)
    (hx : m.image.store.IsLet (lib.sym "let") m.control.exp ds es)
    (hlv : p.slots.length ≠ level) (hh : p.slots.length + 3 ≤ h) :
    Passes level (p.held ++ expressions ds es) p.slots 0 h .eval m .eval fun m' => ∃ b bs body e,
      m'.ToEval lib Definition.letBody { p with env := e } ∧
      lib.Expanding ⟨b, bs, ds, es, p.env⟩ body e m' := by
  obtain ⟨_, is, b, bs, hform, hb, hbs⟩ := hx
  obtain ⟨i, args, js, hexp, hi, hargs⟩ := hform.exists_cons
  let held := p.held ++ (Value.pair i).refs
  have hi' : m.image.store.Holds held (.pair i) :=
    Store.holds_of_subset (List.subset_append_right _ _)
  have hroots : ∀ r ∈ held, m.image.store.Refers (m.roots .eval) r := by
    refine fun r hr => .root ?_
    rcases List.mem_append.mp hr with hr | hr
    · exact hm.mem_roots hr
    · exact mem_roots_of_control (by simp [Control.roots, hexp, hr])
  have hargs' := (hargs.holds (hi'.parts hi).right).left
  have hb' := hargs' b List.mem_cons_self
  let a : LetArgs := ⟨b, bs, ds, es, p.env⟩
  have hx : lib.LetCall a m := ⟨hl.toLoaded, hl.injOn_letNames, hl.cadr, hsc, ⟨is, hb⟩, hbs⟩
  have henv : m.image.store.Refers held p.env.ref :=
    .root (List.mem_append_left _ List.mem_cons_self)
  have hsee := hsc.sees "let" rfl
  refine ((hm.form hg hroots hexp hi hargs hsee hl.isSpecial_let hh).frame.mono
    (List.suffix_refl _) ?_
    (Nat.le_refl _) (Nat.le_refl h)).bind 0 (fun m₁ _ hg₁ hm₁ => ?_) (Nat.le_refl _)
  · exact List.forall_mem_append.mpr ⟨fun _ hr => .root (List.mem_append_left _ hr),
      refers_expressions (hx.holds_snd hb') fun w hw => hargs' w (List.mem_cons_of_mem _ hw)⟩
  obtain ⟨⟨hm₁, -⟩, ha₁⟩ := hm₁
  have hglobal : m.image.store.Refers held m.global.ref :=
    .root (List.mem_append_left _ (Place.waiting_subset_held (hm.global ▸ List.mem_cons_self)))
  have hx₁ := hx.leaves ha₁.toLeaves hg.sound hb' henv hglobal
  have hform₁ := hl.form.keeps (hsee.holds hg.sound henv) ha₁.keeps
  let held₁ := p.held ++ (b :: es).flatMap Value.refs
  have harg {w : Value} (hw : w ∈ b :: es) : m₁.image.store.Holds held₁ w :=
    Store.holds_of_subset fun r hr =>
    List.mem_append_right _ (List.mem_flatMap.mpr ⟨w, hw, hr⟩)
  have hb₁ := harg List.mem_cons_self
  have henv₁ : m₁.image.store.Refers held₁ p.env.ref :=
    .root (List.mem_append_left _ List.mem_cons_self)
  have hroots₁ :
      ∀ r ∈ held₁, m₁.image.store.Refers (m₁.roots (.apply (.closure (lib.proc "let")))) r := by
    exact List.forall_mem_append.mpr ⟨fun r hr => .root (hm₁.mem_roots hr),
      fun r hr => hm₁.refers (List.mem_append_right _ hr)⟩
  have hne : lib.sym "bindings" ≠ .ampersand := fun he => by
    have := hl.injOn_letNames (by decide : "bindings" ∈ letNames) (by decide : "&" ∈ letNames)
      (he.trans hl.mark.symm)
    exact absurd this (by decide)
  have hm₁ : m₁.ToApply ([b] ++ es) p := hm₁
  refine ((hm₁.enterForm hg₁ hroots₁ hform₁ rfl hlv hl.mark
    (by simpa using hne)).frame.mono (List.suffix_refl _) ?_ (Nat.le_refl _) (Nat.le_refl h)).imp ?_
  · exact List.forall_mem_append.mpr ⟨fun _ hr => .root (List.mem_append_left _ hr),
      refers_expressions (hx₁.holds_snd hb₁) fun w hw => harg (List.mem_cons_of_mem _ hw)⟩
  · rintro m₂ ⟨⟨e, rest, ids, hm₂, hframed, hrest⟩, ha₂⟩
    have hglobal₁ : m₁.image.store.Refers held₁ m₁.global.ref :=
      .root (List.mem_append_left _ (Place.waiting_subset_held (hm₁.global ▸ List.mem_cons_self)))
    exact ⟨b, bs, rest, e, hm₂, hx₁.leaves ha₂.toLeaves hg₁.sound hb₁ henv₁ hglobal₁, hframed,
      ids, hrest⟩

section Main

variable (hl : lib.HasLet m) (hsc : m.image.store.Scope lib p.env lib.letBindings)
  (hg : m.Going .eval)
variable (hm : m.Placed p)
include hl hsc hg hm

theorem Machine.Placed.computes_binding {u : Value}
    (hx : m.image.store.IsLet (lib.sym "let") m.control.exp ds (u :: es))
    (hr : spare + 128 * ds.length + 216 ≤ m.image.store.room) :
    Computes (p.slots.length + 1) (p.held ++ expressions ds (u :: es)) p.slots
      (p.slots.length + 56) spare
      .eval m .evalOperator fun m' => ∃ k, m'.Binding ds (u :: es) p k := by
  refine (hm.enterLet hl hsc hg hx (by omega) (by omega)).computes (fun _ => .root) ?_
  rintro m₁ ha₁ hg₁ ⟨b, bs, body, e, hm₁, hx₁⟩
  have hlen : bs.length = ds.length := hx₁.bindings.length_eq
  have hroom₁ := ha₁.room
  have henv : m₁.image.store.Refers { p with env := e }.held e.ref := .root List.mem_cons_self
  have hheld : ∀ r ∈ p.held ++ expressions ds (u :: es),
      m₁.image.store.Refers { p with env := e }.held r := by
    refine List.forall_mem_append.mpr
      ⟨List.forall_mem_cons.mpr ⟨hx₁.framed.refers henv, fun r hr => ?_⟩,
      hx₁.refers hg₁.sound henv⟩
    exact .root (List.mem_cons_of_mem _ hr)
  have hroom₁ : spare + 1 + 128 * bs.length + 215 ≤ m₁.image.store.room := by omega
  refine (hx₁.expand hg₁ hm₁ hroom₁ (by omega) (by omega) (Nat.le_refl _)).bind
    (List.suffix_refl _) hheld ?_
  rintro m₂ - hg₂ hroom₂ ⟨hm₂, hsc₂, hx₂⟩
  refine (hm₂.binding hg₂ hx₂ (hsc₂.sees "lambda" rfl) (by omega) (by simp) (by simp)).computes
    (fun _ => .root) ?_
  intro m₃ ha₃ hg₃ hm₃
  have hroom₃ := ha₃.room
  exact ⟨m₃, .refl, .refl hg₃.sound, hg₃, by omega, hm₃⟩

-- In the environment of the caller, the expressions are evaluated one after the other, and a
-- procedure made there is applied to their values. Nothing else happens to what was there before.
theorem let_calls_lambda {u : Value}
    (hx : m.image.store.IsLet (lib.sym "let") m.control.exp ds (u :: es))
    (hr : 128 * ds.length + 216 ≤ m.image.store.room) :
    ∃ k m₁, Stretch (p.slots.length + 1) p.slots (.eval, m) (.evalOperator, m₁) ∧
      Allocates (p.held ++ expressions ds (u :: es)) (128 * ds.length + 216)
        (p.slots.length + 56) m m₁ ∧
      m₁.Binding ds (u :: es) p k ∧
      (Prompt (.closure k) p ([], ds.map Prod.snd, .evalOperator, m₁) → ∃ vs m₂ j,
        Gathered (.closure k) p ([], ds.map Prod.snd, .evalOperator, m₁) vs m₂ ∧
        ∀ rest n, Course (.running rest (n + j) .eval m)
          (.running rest n (.apply (.closure k)) m₂)) := by
  obtain ⟨spare, hspare⟩ := Nat.exists_eq_add_of_le' hr
  have hr : spare + 128 * ds.length + 216 ≤ m.image.store.room := by omega
  obtain ⟨m₁, hs, hleaves, hg₁, hroom, k, hb⟩ := hm.computes_binding hl hsc hg hx hr
  refine ⟨k, m₁, hs, ⟨hleaves, by omega⟩, hb, fun hp => ?_⟩
  obtain ⟨vs, m₂, hgather⟩ := hb.operands.exists_gathered hg₁ hp
  have ho : Over p.slots (.eval, m) (.apply (.closure k), m₂) := hs.toOver.trans hgather.toOver
  have ⟨j, hj⟩ := ho.course
  exact ⟨vs, m₂, j, hgather, hj⟩

end Main

theorem isLet_sample {s : Store} (h : s.Spells lib v
    (.call "let" [.list [.list [.symbol "a", .symbol "x"] .nil] .nil, .symbol "a"])) :
    s.IsLet (lib.sym "let") v [(lib.sym "a", .symbol (lib.sym "x"))] [.symbol (lib.sym "a")] := by
  obtain ⟨i, _, _, rfl, hi, hlet, hrest⟩ := h.list_cons
  obtain ⟨j, b, _, rfl, hj, hb, hrest⟩ := hrest.list_cons
  obtain ⟨k, _, _, rfl, hk, ha, hnil⟩ := hrest.list_cons
  obtain ⟨i', d, _, rfl, hi', hd, hnil'⟩ := hb.list_cons
  obtain ⟨j', _, _, rfl, hj', ha', hrest⟩ := hd.list_cons
  obtain ⟨k', _, _, rfl, hk', hx, -⟩ := hrest.list_cons
  cases hlet
  cases ha
  cases hnil
  cases hnil'
  cases ha'
  cases hx
  exact ⟨_, _, _, _, .cons hi (.cons hj (.cons hk .nil)), .cons hi' .nil,
    .cons ⟨_, _, _, rfl, hj', hk'⟩ .nil⟩

theorem let_calls_lambda_argument : ∃ rest n, ∃ lib : Library, ∃ m p x a k m₁ m₂,
    Reached (.running rest n .eval m) ∧ m.Placed p ∧
    (∃ f, m.image.store.frame p.env = .ok f ∧ f.parent = some p.global) ∧
    m.image.store.IsLet (lib.sym "let") m.control.exp [(a, .symbol x)] [.symbol a] ∧
    m₁.Binding [(a, .symbol x)] [.symbol a] p k ∧
    Gathered (.closure k) p ([], [.symbol x], .evalOperator, m₁) [.int 5] m₂ := by
  obtain ⟨m₀, hn, ht⟩ := exists_new_bindsArgument
  unfold bindsArgument at ht
  split at ht <;> try exact absurd ht Bool.false_ne_true
  case h_1 rest n m hA =>
    simp only [Bool.and_eq_true, decide_eq_true_eq] at ht
    obtain ⟨⟨⟨⟨hlet, hroom⟩, hexp⟩, hmeans⟩, ht⟩ := ht
    split at ht <;> try exact absurd ht Bool.false_ne_true
    case h_1 f hf =>
      have ⟨hp, ht⟩ := Bool.and_eq_true_iff.mp ht
      split at ht <;> try exact absurd ht Bool.false_ne_true
      case h_1 five hx =>
        cases of_decide_eq_true ht
        have h₀ : Reached (.reading (Reader.walk letSample.toList) m₀) :=
          reached_request (.new hn) _
        have hr : Reached (.running rest n .eval m) := hA ▸ h₀.iterate 6
        have hg := going_of_reached hr
        have hl := hasLet_sound hlet
        have hp := of_decide_eq_true hp
        have ⟨es, hc⟩ := hl.scope.exists_chain
        have hchain : m.image.store.Chain m.control.env (m.control.env :: es) := .link hf hp hc
        let p : Place := ⟨m.global, m.control.env, m.control.cont, m.control.stack.slots⟩
        have hm : m.Placed p := ⟨rfl, rfl, rfl, rfl⟩
        have hsc : m.image.store.Scope (ofMachine m) p.env (ofMachine m).letBindings :=
          Store.scope_of_means hchain hmeans
        have hform := isLet_sample (Store.spells_sound mem_code hexp)
        have hsee : m.image.store.Sees p.env ((ofMachine m).sym "x") (.int 5) :=
          ⟨_, hchain, by rw [List.findSome?_cons, Store.binding?_of_frame hf, hx]⟩
        obtain ⟨k, m₁, -, ha, hb, hrun⟩ :=
          let_calls_lambda hl hsc hg hm hform (by simp; omega)
        have hsee₁ := hsee.keeps (.root (List.mem_append_left _ List.mem_cons_self)) ha.keeps
        have hroom₁ := ha.room
        have hatom : ∀ e ∈ [Value.symbol ((ofMachine m).sym "x")], e.isPair = false := by
          simp [Value.isPair]
        have hspare : 0 + 1 ≤ m₁.image.store.room := by
          simp at hroom₁
          omega
        obtain ⟨vs, m₂, -, hgather, -⟩ := hrun (prompt_of_atoms hatom (.cons hsee₁ .nil) hspare)
        obtain ⟨ws, rfl, hws⟩ := hgather.exists_found hatom
        cases hws
        case cons w _ hw hnil =>
          cases hnil
          have hw : m₁.image.store.Sees p.env ((ofMachine m).sym "x") w := hw
          cases hw.lookup?.symm.trans hsee₁.lookup?
          exact ⟨rest, n, ofMachine m, m, p, _, _, k, m₁, m₂, hr, hm, ⟨f, hf, hp⟩, hform,
            hb, hgather⟩

end StepLisp
