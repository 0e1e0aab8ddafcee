import StepLisp.Proofs.Arithmetic
import StepLisp.Proofs.Prelude.Mapping

namespace StepLisp

open Machine Library Relation

-- What the expressions of bindings and those of a body refer to.
def expressions (ds : List (Symbol × Value)) (body : List Value) : List Ref :=
  (ds.map Prod.snd).flatMap Value.refs ++ body.flatMap Value.refs

theorem refers_expressions {s : Store} {held : List Ref} {ds : List (Symbol × Value)}
    {body : List Value}
    (hd : ∀ d ∈ ds, s.Holds held d.2) (hb : ∀ e ∈ body, s.Holds held e) :
    ∀ r ∈ expressions ds body, s.Refers held r := by
  intro r hr
  rcases List.mem_append.mp hr with hr | hr
  · obtain ⟨w, hw, hr⟩ := List.mem_flatMap.mp hr
    obtain ⟨d, hmem, rfl⟩ := List.mem_map.mp hw
    exact hd d hmem r hr
  · obtain ⟨w, hw, hr⟩ := List.mem_flatMap.mp hr
    exact hb w hw r hr

-- A binding: a name and an expression. What comes after them is ignored.
def Store.IsBinding (s : Store) (b x e : Value) : Prop :=
  ∃ i j rest, b = .pair i ∧ s.object? i.ref = some (.cell ⟨x, .pair j⟩) ∧
    s.object? j.ref = some (.cell ⟨e, rest⟩)

theorem Store.IsBinding.keeps {s s' : Store} {held : List Ref} {b x e : Value}
    (h : s.IsBinding b x e)
    (hb : s.Holds held b) (hk : s.Keeps held s') : s'.IsBinding b x e := by
  obtain ⟨i, j, rest, rfl, hi, hj⟩ := h
  have hj' := (hb.parts hi).right
  exact ⟨i, j, rest, rfl, hk.object? (hb _ List.mem_cons_self) hi,
    hk.object? (hj' _ List.mem_cons_self) hj⟩

theorem Store.IsBinding.forall₂_keeps {s s' : Store} {held : List Ref} {bs : List Value}
    {ds : List (Symbol × Value)}
    (h : List.Forall₂ (fun b d => s.IsBinding b (.symbol d.1) d.2) bs ds)
    (hb : ∀ b ∈ bs, s.Holds held b) (hk : s.Keeps held s') :
    List.Forall₂ (fun b d => s'.IsBinding b (.symbol d.1) d.2) bs ds := by
  induction h
  case nil => exact .nil
  case cons hd _ hi =>
    have ⟨hb', hbs⟩ := List.forall_mem_cons.mp hb
    exact .cons (hd.keeps hb' hk) (hi hbs)

-- The expressions are parts of the bindings.
theorem Store.IsBinding.forall₂_holds {s : Store} {held : List Ref} {bs : List Value}
    {ds : List (Symbol × Value)}
    (h : List.Forall₂ (fun b d => s.IsBinding b (.symbol d.1) d.2) bs ds)
    (hb : ∀ b ∈ bs, s.Holds held b) : ∀ d ∈ ds, s.Holds held d.2 := by
  induction h
  case nil => nofun
  case cons hd _ hi =>
    have ⟨hb', hbs⟩ := List.forall_mem_cons.mp hb
    obtain ⟨i, j, rest, rfl, hi', hj⟩ := hd
    exact List.forall_mem_cons.mpr ⟨((hb'.parts hi').right.parts hj).left, hi hbs⟩

variable {lib : Library} {m m' : Machine} {p q t : Place} {b body f v : Value} {c e : FrameId}
variable {held : List Ref} {h level spare : Nat} {next : Step} {ids : List PairId}
variable {bs es vs ws : List Value} {ds : List (Symbol × Value)} {name : String}

-- The procedures that take a binding apart

theorem answers_car :
    lib.Answers level h Builtin.car.value fun s b x => ∃ e, s.IsBinding b x e where
  keeps := by
    rintro s s' held b x ⟨e, hb⟩ - hh hk
    exact ⟨e, hb.keeps hh hk⟩
  passes := by
    rintro m q b x hg - hm ⟨e, i, j, rest, rfl, hi, -⟩ - hl -
    exact (hm.car hg (by omega) hi).mono (List.suffix_refl _)
      (fun _ hr => .root (Place.waiting_subset_held hr)) (Nat.zero_le _) (Nat.le_refl h)

theorem answers_cadr : lib.Answers level h (.closure (lib.proc "cadr")) fun s b e =>
    (∃ x, s.IsBinding b x e) ∧
      ∃ g, s.Closes lib (lib.proc "cadr") ["x"] Definition.cadr.body g lib.bindings where
  keeps := by
    rintro s s' held b e ⟨⟨x, hb⟩, g, hc⟩ hf hh hk
    exact ⟨⟨x, hb.keeps hh hk⟩, g, hc.keeps hf hk⟩
  passes := by
    rintro m q _ e hg hl hm ⟨⟨x, i, j, rest, rfl, hi, hj⟩, g, hc⟩ hr hlv hh
    have hx : "x" ∈ names ∧ "x" ≠ "&" := by decide
    refine ((hm.enter hg (fun r hr => hm.refers hr) hc rfl (by omega) fun name hn => ?_).frame.mono
      (List.suffix_refl _) (fun r hr => .root (List.mem_append_left _ hr)) (Nat.le_refl _)
      (Nat.le_refl h)).bind 16 (fun m₁ _ hg₁ hm₁ => ?_) (Nat.le_refl _)
    · rw [List.mem_singleton.mp hn]
      exact hl.ne_ampersand hx.left hx.right
    obtain ⟨⟨L, hm₁, hf₁, hsc⟩, ha₁⟩ := hm₁
    have hb : m.image.store.Holds (q.waiting ++ [.pair i].flatMap Value.refs) (.pair i) :=
      holds_argument q _ List.mem_cons_self
    have hi₁ := ha₁.keeps.object? (hb _ List.mem_cons_self) hi
    have hj₁ := ha₁.keeps.object? ((hb.parts hi).right _ List.mem_cons_self) hj
    have hsc₁ := hf₁.scope hsc hl.injOn (by decide) fun b hb => fst_mem_names hb
    have hroom₁ := ha₁.room
    let q' : Place := { q with env := L }
    have hq : q'.slots.length = q.slots.length := rfl
    refine Passes.inside (e := L) <|
      (hm₁.operand (p := q') [] [] hg₁ rfl hsc₁ rfl (ordinary_value rfl) .nil
      (by simp; omega)).bind 16 (fun m₂ ha₂ hg₂ hm₂ => ?_) (Nat.le_refl _)
    obtain ⟨rest', hrest, hm₂⟩ := hm₂
    cases hrest
    have hsc₂ := hsc₁.keeps (.root List.mem_cons_self) ha₂.keeps
    have hi₂ := ha₂.object? hg₁ hsc₁ (x := "x") rfl hi₁
    have hb₁ : m₁.image.store.Holds q'.held (.pair i) :=
      (hsc₁.sees "x" rfl).holds hg₁.sound (.root List.mem_cons_self)
    have hj₂ := ha₂.keeps.object? ((hb₁.parts hi₁).right _ List.mem_cons_self) hj₁
    have hroom₂ := ha₂.room
    let t := q'.operand Builtin.car.value [] .nil
    have ht : t.slots.length = q.slots.length + 6 := Place.length_operand
    refine ((hm₂.cdr (p := t) (h := h) hg₂ hsc₂ rfl (x := "x") rfl hi₂ (by omega) (by omega)
      (by omega)).frame.below Place.operand_above).bind 1 (fun m₃ _ hg₃ hm₃ => ?_) (by omega)
    obtain ⟨hm₃, ha₃⟩ := hm₃
    have hb₂ : m₂.image.store.Holds t.held (.pair i) :=
      (hsc₂.sees "x" rfl).holds hg₂.sound (.root List.mem_cons_self)
    have hj₃ := ha₃.keeps.object? ((hb₂.parts hi₂).right _ List.mem_cons_self) hj₂
    have hsc₃ := hsc₂.keeps (.root (List.mem_cons_self : L.ref ∈ t.held)) ha₃.keeps
    have hroom₃ := ha₃.room
    have hnil : m₃.image.store.Spells lib .nil (.list [] .nil) := .nil
    refine ((hm₃.apply (p := q') [] hg₃ hm₃.subset_roots hnil hsc₃ .nil (by simp; omega)
      (by simp; omega)).frame.mono (List.suffix_refl _)
        (fun r hr => .root (List.mem_append_left _ hr))
      (Nat.le_refl _) (Nat.le_refl h)).bind 0 (fun m₄ _ hg₄ hm₄ => ?_) (Nat.le_refl _)
    obtain ⟨hm₄, ha₄⟩ := hm₄
    have hj₄ := ha₄.keeps.object? (.root (List.mem_append_right _ List.mem_cons_self)) hj₃
    exact (hm₄.car (p := q') hg₄ (by omega) hj₄).imp fun m₅ hm₅ => ⟨hm₅.global, hm₅.val, hm₅.slots⟩

-- The call that is made

-- What holds of a value goes on to hold of it while it is kept.
def Store.Stable (Q : Store → Value → Prop) : Prop :=
  ∀ s s' held v, Q s v → s.Holds held v → s.Keeps held s' → Q s' v

-- A pair of values with these properties.
def Store.IsPair (Q Q' : Store → Value → Prop) (s : Store) (v : Value) : Prop :=
  ∃ i u w, v = .pair i ∧ s.object? i.ref = some (.cell ⟨u, w⟩) ∧ Q s u ∧ Q' s w

theorem Store.Stable.isPair {Q Q' : Store → Value → Prop} (hQ : Stable Q) (hQ' : Stable Q') :
    Stable (IsPair Q Q') := by
  rintro s s' held _ ⟨i, u, w, rfl, hi, hu, hw⟩ hh hk
  have ⟨hu', hw'⟩ := hh.parts hi
  exact ⟨i, u, w, rfl, hk.object? (hh _ List.mem_cons_self) hi, hQ _ _ _ _ hu hu' hk,
    hQ' _ _ _ _ hw hw' hk⟩

theorem Machine.refs_subset_operand {rest : Value} : v.refs ⊆ (p.operand f [v] rest).waiting :=
  Place.refs_subset_waiting (by simp [Place.operand, Place.gathered, Slot.values])

-- A value is a call of the name `x` with these parameters and this body.
def Store.Abstracts (s : Store) (x : Symbol) (v : Value) (params body : List Value) : Prop :=
  ∃ ids is ps, s.Row v ids (.symbol x :: ps :: body) .nil ∧ s.Row ps is params .nil

theorem Store.Abstracts.keeps {s s' : Store} {x : Symbol} {params : List Value}
    (h : s.Abstracts x v params es) (hv : s.Holds held v) (hk : s.Keeps held s') :
    s'.Abstracts x v params es := by
  obtain ⟨ids, is, ps, hrow, hps⟩ := h
  exact ⟨ids, is, ps, hrow.keeps hv hk, hps.keeps ((hrow.holds hv).left ps (by simp)) hk⟩

theorem Store.Abstracts.exists_pair {s : Store} {x : Symbol} {params : List Value}
    (h : s.Abstracts x v params es) : ∃ i, v = .pair i := by
  obtain ⟨ids, is, ps, hrow, -⟩ := h
  obtain ⟨i, -, -, rfl, -⟩ := hrow.exists_cons
  exact ⟨i, rfl⟩

-- A value is a call of such a procedure on the expressions of bindings.
def Store.Expansion (s : Store) (x : Symbol) (v : Value) (ds : List (Symbol × Value))
    (body : List Value) :
    Prop :=
  ∃ ids op, s.Row v ids (op :: ds.map Prod.snd) .nil ∧
    s.Abstracts x op (ds.map fun d => .symbol d.1) body

theorem Store.Expansion.keeps {s s' : Store} {x : Symbol} (h : s.Expansion x v ds es)
    (hv : s.Holds held v) (hk : s.Keeps held s') : s'.Expansion x v ds es := by
  obtain ⟨ids, op, hrow, hop⟩ := h
  exact ⟨ids, op, hrow.keeps hv hk, hop.keeps ((hrow.holds hv).left op List.mem_cons_self) hk⟩

theorem Store.Expansion.refers {s : Store} {x : Symbol} (h : s.Expansion x v ds es)
    (hv : s.Holds held v) :
    ∀ r ∈ expressions ds es, s.Refers held r := by
  obtain ⟨ids, op, hrow, js, is, ps, hop, -⟩ := h
  have ⟨hall, _⟩ := hrow.holds hv
  have ⟨hbody, _⟩ := hop.holds (hall op List.mem_cons_self)
  exact refers_expressions (fun d hd => hall _ (List.mem_cons_of_mem _ (List.mem_map_of_mem hd)))
    fun w hw => hbody w (by simp [hw])

theorem Machine.ToEval.quote {ρ : Bindings} {x : String} (hg : m.Going .eval)
    (hm : m.ToEval lib (.call "quote" [.symbol x]) p) (hsc : m.image.store.Scope lib p.env ρ)
    (hb : ρ.lookup "quote" = some Builtin.quote.value) (hl : p.slots.length ≠ level)
    (hh : p.slots.length + 3 ≤ h) :
    Passes level p.held p.slots 0 h .eval m p.cont (With (.symbol (lib.sym x)) p) := by
  refine (hm.form hg hsc hb isSpecial_value hh).bind 0 (fun m₁ _ hg₁ hm₁ => ?_) (Nat.le_refl _)
  refine (hg₁.steps nofun fun m₂ hc => ?_).passes (fun r hr => .root <| hm₁.mem_roots hr)
    (hm₁.toPlaced.not_appliesAt hl) fun m' hm' => hm'.slots ▸ List.suffix_refl _
  have hm₂ := hc.toForm hm₁
  obtain ⟨i, v, rest, hargl, hi, hv, hrest⟩ := hm₂.argl.list_cons
  cases hv
  cases hrest
  have hun : m₂.image.store.uncons? (.pair i) = some (.symbol (lib.sym x), .nil) :=
    Store.uncons?_of_object? hi
  refine ⟨{ m₂ with control := { m₂.control with val := .symbol (lib.sym x) } }, ?_,
    ⟨.refl hc.keeps.sound, rfl, Nat.le_max_left _ _⟩, hm₂.global, rfl, hm₂.slots⟩
  rw [step_value, ← hm₂.cont]
  show Machine.quote m₂ = _
  rw [Machine.quote, argl_bind_eq, hargl]
  simp only [single, query, Bind.bind, EStateM.bind, hun]
  rfl

-- A pair is evaluated one frame up.
theorem Machine.ToApply.evalUp {i : PairId} {fr : Frame} (hg : m.Going (.apply Builtin.eval.value))
    (hm : m.ToApply [.pair i, .int 1] p)
    (hheld : ∀ r ∈ held, m.image.store.Refers (m.roots (.apply Builtin.eval.value)) r)
    (hf : m.image.store.frame p.env = .ok fr) (hc : fr.parent = some c)
    (hl : p.slots.length ≠ level) :
    Passes level held p.slots 0 h (.apply Builtin.eval.value) m .eval fun m' =>
      m'.Placed { p with env := c } ∧ m'.control.exp = .pair i := by
  refine (hg.steps nofun fun m₁ hcl => ?_).passes hheld (hm.toPlaced.not_appliesAt hl)
    fun m' hm' => hm'.left.slots ▸ List.suffix_refl _
  have hm₁ := hcl.toApply hm
  have ⟨ids, hrow⟩ := hm₁.argl
  have henv : m.image.store.Refers (m.roots (.apply Builtin.eval.value)) p.env.ref :=
    .root <| hm.mem_roots List.mem_cons_self
  have hf₁ : m₁.image.store.frame m₁.control.env = .ok fr := by
    rw [hm₁.env]
    exact Store.frame_of_object? <| hcl.keeps.object? henv (Store.frame_eq_ok_iff.mp hf)
  have hup : m₁.image.store.ancestor m₁.control.env 1 = .ok c := by
    simp only [Store.ancestor, hf₁, Bind.bind, Except.bind, hc]
  refine ⟨{ m₁ with control := { m₁.control with env := c, exp := .pair i } }, ?_,
    ⟨.refl hcl.keeps.sound, rfl, Nat.le_max_left _ _⟩, ⟨hm₁.global, rfl, hm₁.cont, hm₁.slots⟩, rfl⟩
  rw [step_value]
  show evalValue m₁ = _
  simp only [evalValue, Bind.bind, EStateM.bind, looseArguments_eq hrow.toList?]
  show evaluateUp (.pair i) 1 m₁ = _
  simp only [evaluateUp, expression, Bind.bind, EStateM.bind, pure, EStateM.pure, env,
    queryOrFail, hup]
  rfl

-- The frame of a call

-- The list of the bindings with its elements, and what they bind; the expressions of the body; and
-- where the call was made.
structure LetArgs where
  bindings : Value
  elements : List Value
  pairs : List (Symbol × Value)
  expressions : List Value
  caller : FrameId

namespace Library

variable {a : LetArgs}

-- What the names mean in the frame of a call.
def letScope (lib : Library) (a : LetArgs) (body : Value) : Bindings :=
  [("body", body), ("bindings", a.bindings)] ++ lib.letBindings

-- What a call needs.
structure LetCall (lib : Library) (a : LetArgs) (m : Machine) : Prop where
  loaded : lib.Loaded m
  injOn : Set.InjOn lib.sym {name | name ∈ letNames}
  cadr : m.image.store.Closes lib (lib.proc "cadr") ["x"] Definition.cadr.body m.global lib.bindings
  caller : m.image.store.Scope lib a.caller lib.letBindings
  exists_row : ∃ ids, m.image.store.Row a.bindings ids a.elements .nil
  bindings : List.Forall₂ (fun b d => m.image.store.IsBinding b (.symbol d.1) d.2)
    a.elements a.pairs

namespace LetCall

theorem leaves (hx : lib.LetCall a m) (hl : Leaves held h m m') (hs : m.image.store.Sound)
    (hb : m.image.store.Holds held a.bindings) (hc : m.image.store.Refers held a.caller.ref)
    (hg : m.image.store.Refers held m.global.ref) : lib.LetCall a m' := by
  have ⟨is, hrow⟩ := hx.exists_row
  have hbs := (hrow.holds hb).left
  refine ⟨hx.loaded.leaves hl hs hg, hx.injOn, ?_, hx.caller.keeps hc hl.keeps,
    ⟨is, hrow.keeps hb hl.keeps⟩, ?_⟩
  · rw [hl.global_eq]
    exact hx.cadr.keeps ((hx.caller.sees "cadr" rfl).holds hs hc) hl.keeps
  · exact Store.IsBinding.forall₂_keeps hx.bindings hbs hl.keeps

theorem holds_snd (hx : lib.LetCall a m) (hb : m.image.store.Holds held a.bindings) :
    ∀ d ∈ a.pairs, m.image.store.Holds held d.2 := by
  have ⟨is, hrow⟩ := hx.exists_row
  exact Store.IsBinding.forall₂_holds hx.bindings (hrow.holds hb).left

end LetCall

-- The call has made the frame `e`.
structure Expanding (lib : Library) (a : LetArgs) (body : Value) (e : FrameId) (m : Machine) : Prop
    extends lib.LetCall a m where
  framed : m.image.store.Framed lib e ["bindings", "body"] [a.bindings, body] a.caller
  exists_body : ∃ ids, m.image.store.Row body ids a.expressions .nil

namespace Expanding

theorem scope (hx : lib.Expanding a body e m) : m.image.store.Scope lib e (lib.letScope a body) :=
  hx.framed.scope hx.caller hx.injOn (by decide) fun d hd => by
    have hm : d.1 ∈ lib.letBindings.map Prod.fst := List.mem_map_of_mem hd
    revert hm
    generalize d.1 = name
    revert name
    exact (by decide : ∀ name ∈ ["let", "eval", "quote", "cons", "map", "car", "cadr", "lambda"],
      name ∈ letNames)

theorem holds (hx : lib.Expanding a body e m) (hs : m.image.store.Sound)
    (he : m.image.store.Refers held e.ref) (name : String)
    (hv : (lib.letScope a body).lookup name = some v) : m.image.store.Holds held v :=
  (hx.scope.sees name hv).holds hs he

theorem leaves (hx : lib.Expanding a body e m) (hl : Leaves held h m m') (hs : m.image.store.Sound)
    (he : m.image.store.Refers held e.ref) (hg : m.image.store.Refers held m.global.ref) :
    lib.Expanding a body e m' where
  toLetCall := hx.toLetCall.leaves hl hs (hx.holds hs he "bindings" rfl) (hx.framed.refers he) hg
  framed := hx.framed.keeps he hl.keeps
  exists_body := by
    have ⟨ids, hbody⟩ := hx.exists_body
    exact ⟨ids, hbody.keeps (hx.holds hs he "body" rfl) hl.keeps⟩

theorem waits (hx : lib.Expanding a body t.env m) (hl : Leaves held h m m')
    (hs : m.image.store.Sound)
    (hm : m.global = t.global) (he : t.env.ref ∈ t.waiting) (hh : t.waiting ⊆ held) :
    lib.Expanding a body t.env m' :=
  hx.leaves hl hs (.root (hh he)) (.root (hh (hm ▸ List.mem_cons_self)))

theorem refers (hx : lib.Expanding a body e m) (hs : m.image.store.Sound)
    (he : m.image.store.Refers held e.ref) :
    ∀ r ∈ expressions a.pairs a.expressions, m.image.store.Refers held r := by
  obtain ⟨ids, hbody⟩ := hx.exists_body
  exact refers_expressions (hx.holds_snd (hx.holds hs he "bindings" rfl))
    (hbody.holds (hx.holds hs he "body" rfl)).left

end Expanding

-- In the frame of a call, an expression comes to a value with the property `Q`. It takes so many
-- cells and slots.
structure Makes (lib : Library) (a : LetArgs) (body : Value) (level h cost depth : Nat) (d : Datum)
    (Q : Store → Value → Prop) : Prop where
  stable : Store.Stable Q
  computes {m : Machine} {t : Place} {spare : Nat} : lib.Expanding a body t.env m → m.Going .eval →
    m.ToEval lib d t → t.env.ref ∈ t.waiting → spare + cost ≤ m.image.store.room →
    level < t.slots.length → t.slots.length + depth ≤ h →
    Computes level t.waiting t.slots h spare .eval m t.cont fun m' =>
      lib.Expanding a body t.env m' ∧ ∃ v, m'.With v t ∧ Q m'.image.store v

-- The bindings are mapped.
theorem makes_map {R : Store → Value → Value → Prop}
    (hn : (lib.letScope a body).lookup name = some f)
    (ho : ∀ {e : FrameId} {m : Machine}, lib.Expanding a body e m → Ordinary m.image.store f)
    (hf : lib.Answers level h f R)
    (hv : ∀ {e : FrameId} {m : Machine}, lib.Expanding a body e m →
      List.Forall₂ (R m.image.store) a.elements ws) :
    lib.Makes a body level h (64 * a.elements.length + 102) 31
      (.call "map" [.symbol name, .symbol "bindings"]) fun s v => ∃ ids, s.Row v ids ws .nil where
  stable := by
    rintro s s' held v ⟨ids, hrow⟩ hh hk
    exact ⟨ids, hrow.keeps hh hk⟩
  computes {m t spare} hx hg hm he hr hl hh := by
    refine (hm.call [f, a.bindings] hg hx.scope (x := "map") rfl
      (hx.loaded.ordinary (by simp [Definition.all])) (.cons hn (.cons rfl .nil)) (by simp; omega)
      (by simp; omega)).computes (fun r hr => .root (Place.waiting_subset_held hr)) ?_
    intro m₁ ha₁ hg₁ hm₁
    have hx₁ := hx.waits ha₁.toLeaves hg.sound hm.global he Place.waiting_subset_held
    obtain ⟨is, hrow⟩ := hx₁.exists_row
    have hroom₁ : spare + 64 * a.elements.length + 100 ≤ m₁.image.store.room := by
      have := ha₁.room
      simp at this
      omega
    obtain ⟨m₂, hs₂, hl₂, hg₂, hroom₂, -, r, hm₂, js, hrow₂, -⟩ :=
      hx₁.loaded.maps hg₁ hm₁ (ho hx₁) hf hrow (hv hx₁) hroom₁ hl hh
    exact ⟨m₂, hs₂, hl₂, hg₂, hroom₂, hx₁.waits hl₂ hg₁.sound hm₁.global he (List.Subset.refl _),
      r, hm₂, js,
      hrow₂⟩

theorem makes_quote {x : String} :
    lib.Makes a body level h 0 3 (.call "quote" [.symbol x]) fun _ v =>
    v = .symbol (lib.sym x) where
  stable _ _ _ _ hv _ _ := hv
  computes {m t spare} hx hg hm he hr hl hh := by
    refine (hm.quote hg hx.scope rfl (by omega) hh).computes
      (fun r hr => .root (Place.waiting_subset_held hr)) ?_
    intro m₁ ha₁ hg₁ hm₁
    have hroom₁ := ha₁.room
    exact ⟨m₁, .refl, .refl hg₁.sound, hg₁, by omega,
      hx.waits ha₁.toLeaves hg.sound hm.global he Place.waiting_subset_held, _, hm₁, rfl⟩

namespace Makes

theorem mono {d : Datum} {Q : Store → Value → Prop} {cost cost' depth depth' : Nat}
    (hd : lib.Makes a body level h cost depth d Q) (hc : cost ≤ cost') (hdepth : depth ≤ depth') :
    lib.Makes a body level h cost' depth' d Q where
  stable := hd.stable
  computes hx hg hm he hr hl hh := hd.computes hx hg hm he (by omega) hl (by omega)

variable {n x y : String} {xs ys dat : List Datum} {Q Q' : Store → Value → Prop}
variable {cost cost' depth depth' : Nat} {u rest : Value}

-- The first operand of a call
theorem first (hd : lib.Makes a body level h cost depth (.call x xs) Q)
    (hx : lib.Expanding a body t.env m)
    (hg : m.Going .eval) (hm : m.ToEval lib (.call n (.call x xs :: dat)) t)
    (hn : (lib.letScope a body).lookup n = some f) (ho : Ordinary m.image.store f)
    (hr : spare + cost ≤ m.image.store.room) (hl : level < t.slots.length + 6)
    (hh : t.slots.length + depth + 6 ≤ h) :
    Computes level t.held t.slots h spare .eval m .evalOperand fun m' =>
      lib.Expanding a body t.env m' ∧
      ∃ u rest, m'.With u (t.operand f [] rest) ∧ m'.image.store.Spells lib rest (.list dat .nil) ∧
        Q m'.image.store u := by
  refine (hm.operand (h := h) [] [] hg rfl hx.scope hn ho .nil (by simp; omega)).computes
    (fun _ => .root) ?_
  rintro m₁ ha₁ hg₁ ⟨rest, hrest, hm₁⟩
  have hx₁ := hx.leaves ha₁.toLeaves hg.sound (.root List.mem_cons_self)
    (.root (Place.waiting_subset_held (hm.global ▸ List.mem_cons_self)))
  let t₁ := t.operand f [] rest
  have ht₁ : t₁.slots.length = t.slots.length + 6 := Place.length_operand
  have hup : t.held ⊆ t₁.waiting := Place.operand_above.held
  have hrest' : rest.refs ⊆ t₁.waiting := Place.refs_subset_waiting (by simp [t₁, Place.operand])
  have hroom₁ : spare + cost ≤ m₁.image.store.room := hr.trans ha₁.room
  refine (hd.computes (t := t₁) hx₁ hg₁ hm₁ (hup List.mem_cons_self) hroom₁ (by omega)
    (by omega)).bind
    Place.operand_above.slots (fun r hr => .root (hup hr)) ?_
  rintro m₂ hl₂ hg₂ hroom₂ ⟨hx₂, u, hm₂, hu⟩
  exact ⟨m₂, .refl, .refl hg₂.sound, hg₂, hroom₂, hx₂, u, rest, hm₂,
    hrest.keeps (Store.holds_of_subset hrest') hl₂.keeps, hu⟩

-- The second one
theorem second (hd : lib.Makes a body level h cost depth (.call x xs) Q) (hQ : Store.Stable Q')
    (hx : lib.Expanding a body t.env m) (hg : m.Going .evalOperand)
    (hm : m.With u (t.operand f [] rest))
    (hrest : m.image.store.Spells lib rest (.list [.call x xs] .nil)) (hu : Q' m.image.store u)
    (hr : spare + cost ≤ m.image.store.room) (hl : level < t.slots.length + 7)
    (hh : t.slots.length + depth + 7 ≤ h) :
    Computes level t.held t.slots h spare .evalOperand m .evalOperand fun m' =>
      lib.Expanding a body t.env m' ∧
      ∃ w, m'.With w (t.operand f [u] .nil) ∧ Q' m'.image.store u ∧ Q m'.image.store w := by
  refine (hm.operand (p := t) (h := h) [] [] hg hm.subset_roots hrest rfl hx.scope .nil
    (by simp; omega)).computes (fun r hr => .root (List.mem_append_left _ hr)) ?_
  rintro m₁ ha₁ hg₁ ⟨_, ⟨⟩, hm₁⟩
  have hx₁ := hx.leaves ha₁.toLeaves hg.sound (.root (List.mem_append_left _ List.mem_cons_self))
    (.root (List.mem_append_left _ (Place.waiting_subset_held (hm.global ▸ List.mem_cons_self))))
  have hu₁ := hQ _ _ _ _ hu (Store.holds_of_subset (List.subset_append_right _ _)) ha₁.keeps
  let t₁ := t.operand f [u] .nil
  have ht₁ : t₁.slots.length = t.slots.length + 7 := Place.length_operand
  have hup : t.held ⊆ t₁.waiting := Place.operand_above.held
  have hroom₁ : spare + cost ≤ m₁.image.store.room := hr.trans ha₁.room
  refine (hd.computes (t := t₁) hx₁ hg₁ hm₁ (hup List.mem_cons_self) hroom₁ (by omega)
    (by omega)).bind
    Place.operand_above.slots (fun r hr => .root (hup hr)) ?_
  rintro m₂ hl₂ hg₂ hroom₂ ⟨hx₂, w, hm₂, hw⟩
  exact ⟨m₂, .refl, .refl hg₂.sound, hg₂, hroom₂, hx₂, w, hm₂,
    hQ _ _ _ _ hu₁ (Store.holds_of_subset refs_subset_operand) hl₂.keeps, hw⟩

end Makes

-- The pair of two values
theorem Expanding.pair {Q Q' : Store → Value → Prop} {u w : Value}
    (hx : lib.Expanding a body t.env m)
    (hg : m.Going (.apply Builtin.cons.value)) (hm : m.ToApply [u, w] t)
    (he : t.env.ref ∈ t.waiting)
    (hQ : Store.Stable Q) (hQ' : Store.Stable Q') (hu : Q m.image.store u) (hw : Q' m.image.store w)
    (hr : spare + 1 ≤ m.image.store.room) (hl : level < t.slots.length) :
    Computes level t.waiting t.slots h spare (.apply Builtin.cons.value) m t.cont fun m' =>
      lib.Expanding a body t.env m' ∧ ∃ v, m'.With v t ∧ Store.IsPair Q Q' m'.image.store v := by
  refine (hm.pair (h := h) hg (fun r hr => hm.refers hr) (by omega) (by omega)).computes
    (fun r hr => .root (List.mem_append_left _ hr)) ?_
  rintro m₁ ha₁ hg₁ ⟨i, hm₁, hi, -⟩
  have hroom₁ := ha₁.room
  exact ⟨m₁, .refl, .refl hg₁.sound, hg₁, by omega,
    hx.waits ha₁.toLeaves hg.sound hm.global he (List.subset_append_left _ _), .pair i, hm₁, i, u,
    w, rfl, hi,
    hQ _ _ _ _ hu (holds_argument t _ (by simp)) ha₁.keeps,
    hQ' _ _ _ _ hw (holds_argument t _ (by simp)) ha₁.keeps⟩

namespace Makes

variable {x y : String} {xs ys : List Datum} {Q Q' : Store → Value → Prop}
  {cost cost' depth depth' : Nat}

-- A pair of a value that is made and the list of the expressions.
theorem cons_body (hd : lib.Makes a body level h cost depth (.call x xs) Q) :
    lib.Makes a body level h (cost + 3) (depth + 6) (.call "cons" [.call x xs, .symbol "body"])
      (Store.IsPair Q fun _ w => w = body) where
  stable := hd.stable.isPair fun _ _ _ _ hw _ _ => hw
  computes {m t spare} hx hg hm he hr hl hh := by
    have hr : spare + 3 + cost ≤ m.image.store.room := by omega
    refine (hd.first hx hg hm rfl (ordinary_value rfl) hr (by omega) (by omega)).bind
      (List.suffix_refl _)
      (fun r hr => .root (Place.waiting_subset_held hr)) ?_
    rintro m₁ - hg₁ hroom₁ ⟨hx₁, u, rest, hm₁, hrest, hu⟩
    refine (hm₁.apply (h := h) [body] hg₁ hm₁.subset_roots hrest hx₁.scope (.cons rfl .nil)
      (by simp; omega)
      (by simp; omega)).computes
      (fun r hr => .root (List.mem_append_left _ (Place.waiting_subset_held hr))) ?_
    intro m₂ ha₂ hg₂ hm₂
    have hx₂ := hx₁.waits ha₂.toLeaves hg₁.sound hm₁.global he fun r hr =>
      List.mem_append_left _ (Place.waiting_subset_held hr)
    have hu₂ := hd.stable _ _ _ _ hu (Store.holds_of_subset (List.subset_append_right _ _))
      ha₂.keeps
    have hroom₂ : spare + 1 ≤ m₂.image.store.room := by
      have := ha₂.room
      simp at this
      omega
    exact hx₂.pair hg₂ hm₂ he hd.stable (fun _ _ _ _ hw _ _ => hw) hu₂ rfl hroom₂ hl

-- A pair of two values that are made.
theorem cons (hd : lib.Makes a body level h cost depth (.call x xs) Q)
    (hd' : lib.Makes a body level h cost' depth' (.call y ys) Q') :
    lib.Makes a body level h (cost + cost' + 3) (max (depth + 6) (depth' + 7))
      (.call "cons" [.call x xs, .call y ys]) (Store.IsPair Q Q') where
  stable := hd.stable.isPair hd'.stable
  computes {m t spare} hx hg hm he hr hl hh := by
    have hr : spare + 3 + cost' + cost ≤ m.image.store.room := by omega
    refine (hd.first hx hg hm rfl (ordinary_value rfl) hr (by omega) (by omega)).bind
      (List.suffix_refl _)
      (fun r hr => .root (Place.waiting_subset_held hr)) ?_
    rintro m₁ - hg₁ hroom₁ ⟨hx₁, u, rest, hm₁, hrest, hu₁⟩
    refine (hd'.second hd.stable hx₁ hg₁ hm₁ hrest hu₁ hroom₁ (by omega) (by omega)).bind
      (List.suffix_refl _)
      (fun r hr => .root (Place.waiting_subset_held hr)) ?_
    rintro m₂ - hg₂ hroom₂ ⟨hx₂, w, hm₂, hu₂, hw₂⟩
    have hnil : m₂.image.store.Spells lib .nil (.list [] .nil) := .nil
    have hroots : t.held ++ (u.refs ++ w.refs) ⊆ m₂.roots .evalOperand :=
      List.append_subset.mpr ⟨hm₂.held_subset_roots, List.append_subset.mpr
        ⟨fun _ hr => hm₂.mem_roots rfl (refs_subset_operand hr), hm₂.val_subset_roots⟩⟩
    refine (hm₂.apply (h := h) [] hg₂ hroots hnil hx₂.scope .nil (by simp; omega)
      (by simp; omega)).computes
      (fun r hr => .root (List.mem_append_left _ (Place.waiting_subset_held hr))) ?_
    intro m₃ ha₃ hg₃ hm₃
    have hx₃ := hx₂.waits ha₃.toLeaves hg₂.sound hm₂.global he fun r hr =>
      List.mem_append_left _ (Place.waiting_subset_held hr)
    have hu₃ := hd.stable _ _ _ _ hu₂ (Store.holds_of_subset fun _ hr =>
      List.mem_append_right _ (List.mem_append_left _ hr)) ha₃.keeps
    have hw₃ := hd'.stable _ _ _ _ hw₂ (Store.holds_of_subset fun _ hr =>
      List.mem_append_right _ (List.mem_append_right _ hr)) ha₃.keeps
    have hroom₃ : spare + 1 ≤ m₃.image.store.room := by
      have := ha₃.room
      simp at this
      omega
    exact hx₃.pair hg₃ hm₃ he hd.stable hd'.stable hu₃ hw₃ hroom₃ hl

end Makes

-- The names of the bindings
theorem makes_names : lib.Makes a body level h (64 * a.elements.length + 102) 31
    (.call "map" [.symbol "car", .symbol "bindings"]) fun s v =>
      ∃ ids, s.Row v ids (a.pairs.map fun d => .symbol d.1) .nil :=
  makes_map rfl (fun _ => ordinary_value rfl) answers_car fun hx =>
    List.forall₂_map_right_iff.mpr <| hx.bindings.imp fun _ d h => ⟨d.2, h⟩

-- Their expressions
theorem makes_values : lib.Makes a body level h (64 * a.elements.length + 102) 31
    (.call "map" [.symbol "cadr", .symbol "bindings"]) fun s v =>
      ∃ ids, s.Row v ids (a.pairs.map Prod.snd) .nil :=
  makes_map rfl (fun hx => hx.cadr.ordinary) answers_cadr fun hx =>
    List.forall₂_map_right_iff.mpr <| hx.bindings.imp fun _ _ h => ⟨⟨_, h⟩, _, hx.cadr⟩

-- The call that `let` makes
theorem makes_call : lib.Makes a body level h (128 * a.elements.length + 213) 50
    (.call "cons" [Definition.lambdaOf, .call "map" [.symbol "cadr", .symbol "bindings"]])
    (Store.IsPair (Store.IsPair (fun _ u => u = .symbol (lib.sym "lambda")) <| Store.IsPair
      (fun s v => ∃ ids, s.Row v ids (a.pairs.map fun d => .symbol d.1) .nil) fun _ w => w = body)
      fun s v => ∃ ids, s.Row v ids (a.pairs.map Prod.snd) .nil) :=
  ((makes_quote.cons makes_names.cons_body).cons makes_values).mono (by omega) (by omega)

theorem Expanding.expansion (hx : lib.Expanding a body e m)
    (h : Store.IsPair (Store.IsPair (fun _ u => u = .symbol (lib.sym "lambda")) <| Store.IsPair
      (fun s v => ∃ ids, s.Row v ids (a.pairs.map fun d => .symbol d.1) .nil) fun _ w => w = body)
      (fun s v => ∃ ids, s.Row v ids (a.pairs.map Prod.snd) .nil) m.image.store v) :
    m.image.store.Expansion (lib.sym "lambda") v a.pairs a.expressions := by
  obtain ⟨i, op, _, rfl, hi, ⟨j, _, _, rfl, hj, rfl, k, ps, _, rfl, hk, ⟨js, hps⟩, rfl⟩, is,
    hrow⟩ := h
  have ⟨ids, hbody⟩ := hx.exists_body
  exact ⟨i :: is, .pair j, .cons hi hrow, j :: k :: ids, js, ps, .cons hj (.cons hk hbody), hps⟩

-- It is evaluated where `let` was called.
theorem Expanding.expand (hx : lib.Expanding a body e m) (hg : m.Going .eval)
    (hm : m.ToEval lib Definition.letBody { p with env := e })
    (hr : spare + 128 * a.elements.length + 215 ≤ m.image.store.room) (hl : p.slots.length < level)
    (hl' : level < p.slots.length + 6) (hh : p.slots.length + 56 ≤ h) :
    Computes level { p with env := e }.held p.slots h spare .eval m .eval fun m' =>
      m'.Placed { p with env := a.caller } ∧ m'.image.store.Scope lib a.caller lib.letBindings ∧
      m'.image.store.Expansion (lib.sym "lambda") m'.control.exp a.pairs a.expressions := by
  let q : Place := { p with env := e }
  have hq : q.slots.length = p.slots.length := rfl
  have hr : spare + 2 + (128 * a.elements.length + 213) ≤ m.image.store.room := by omega
  refine (makes_call.first (t := q) hx hg hm rfl (ordinary_value rfl) hr hl' (by omega)).bind
    (List.suffix_refl _) (fun _ => .root) ?_
  rintro m₁ - hg₁ hroom₁ ⟨hx₁, v, rest, hm₁, hrest, hv⟩
  have hexp₁ := hx₁.expansion hv
  obtain ⟨i, -, -, rfl, -⟩ := hv
  have hglobal {m : Machine} (hm : m.global = p.global) :
      m.image.store.Refers (q.held ++ (Value.pair i).refs) m.global.ref := by
    rw [hm]
    exact .root <| List.mem_append_left _ (Place.waiting_subset_held List.mem_cons_self)
  have henv {m : Machine} : m.image.store.Refers (q.held ++ (Value.pair i).refs) e.ref :=
    .root (List.mem_append_left _ List.mem_cons_self)
  refine (hm₁.apply (p := q) (h := h) [.int 1] hg₁ hm₁.subset_roots hrest hx₁.scope (.cons rfl .nil)
    (by simp; omega) (by simp; omega)).computes (fun r hr => .root (List.mem_append_left _ hr)) ?_
  intro m₂ ha₂ hg₂ hm₂
  have hx₂ := hx₁.leaves ha₂.toLeaves hg₁.sound henv (hglobal hm₁.global)
  have hexp₂ := hexp₁.keeps (Store.holds_of_subset (List.subset_append_right _ _)) ha₂.keeps
  have hroom₂ := ha₂.room
  have ⟨fr, hfr, hparent, _⟩ := hx₂.framed
  have hheld : ∀ r ∈ q.held ++ (Value.pair i).refs,
      m₂.image.store.Refers (m₂.roots (.apply Builtin.eval.value)) r :=
    List.forall_mem_append.mpr ⟨fun r hr => .root (hm₂.mem_roots hr),
      fun r hr => hm₂.refers (List.mem_append_right _ (List.mem_append_left _ hr))⟩
  refine (ToApply.evalUp (h := h) hg₂ hm₂ hheld hfr hparent (by omega)).computes
    (fun r hr => .root (List.mem_append_left _ hr)) ?_
  rintro m₃ ha₃ hg₃ ⟨hm₃, he₃⟩
  have hx₃ := hx₂.leaves ha₃.toLeaves hg₂.sound henv (hglobal hm₂.global)
  have hexp₃ := hexp₂.keeps (Store.holds_of_subset (List.subset_append_right _ _)) ha₃.keeps
  have hroom₃ := ha₃.room
  simp only [List.length_nil, List.length_singleton] at hroom₂
  exact ⟨m₃, .refl, .refl hg₃.sound, hg₃, by omega, hm₃, hx₃.caller, he₃ ▸ hexp₃⟩

end Library

end StepLisp
