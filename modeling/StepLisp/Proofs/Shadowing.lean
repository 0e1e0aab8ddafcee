import StepLisp.Proofs.Ancestry

namespace StepLisp

theorem Frame.lookup_cons {x y : Symbol} {v : Value} {rest : List (Symbol × Value)} :
    ((x, v) :: rest).lookup y = if y = x then some v else rest.lookup y := by
  by_cases h : y = x
  · simp [h]
  · simp [List.lookup_cons, beq_false_of_ne h, h]

theorem Frame.get?_define {f : Frame} {x y : Symbol} {v : Value} :
    (f.define x v).get? y = if y = x then some v else f.get? y := by
  obtain ⟨bindings, parent⟩ := f
  simp only [define, get?]
  induction bindings
  case nil => rw [bind, lookup_cons]
  case cons b rest hi =>
    obtain ⟨z, w⟩ := b
    rw [bind]
    by_cases hz : z = x
    · subst hz
      rw [if_pos rfl, lookup_cons, lookup_cons]
      split <;> rfl
    · rw [if_neg hz, lookup_cons, lookup_cons, hi]
      by_cases hy : y = z
      · simp [hy, hz]
      · simp [hy]

namespace Store

variable {s s' : Store} {e e' : FrameId} {es : List FrameId} {x y : Symbol} {v : Value}

-- One name means something else in one frame. Everything else is as it was.
structure Rebinds (s : Store) (e : FrameId) (x : Symbol) (v : Value) (s' : Store) : Prop where
  rest_eq : { s' with frames := s.frames } = s
  parents_eq : s'.parents = s.parents
  binding?_eq (y : Symbol) (e' : FrameId) :
    s'.binding? y e' = if e' = e ∧ y = x then some v else s.binding? y e'

theorem parents_of_frame {f : Frame} (h : s.frame e = .ok f) :
    s.parents e.index = some f.parent := by
  rw [parents, present_eq_ok_iff.mp h]
  rfl

theorem Chain.of_parents_eq (h : s.Chain e es) (hp : s'.parents = s.parents) : s'.Chain e es := by
  induction h
  case last hf hn =>
    have ⟨f, hf, he⟩ := frame_of_parents <| (congrFun hp _).trans (parents_of_frame hf)
    exact .last hf (he.trans hn)
  case link hf hn _ hi =>
    have ⟨f, hf, he⟩ := frame_of_parents <| (congrFun hp _).trans (parents_of_frame hf)
    exact .link hf (he.trans hn) hi

theorem Chain.exists_frame (h : s.Chain e es) : ∃ f, s.frame e = .ok f := by
  cases h
  case last f _ hf => exact ⟨f, hf⟩
  case link f _ _ _ hf => exact ⟨f, hf⟩

theorem binding?_eq_bind : s.binding? x e = (s.frames.get? e.index).bind (·.get? x) := by
  rw [binding?, frame]
  cases s.frames.get? e.index <;> rfl

theorem define_rebinds {f : Frame} (h : s.frame e = .ok f) :
    ∃ s', define e x v s = .ok () s' ∧ s.Rebinds e x v s' := by
  refine ⟨{ s with frames := s.frames.modify e.index (·.define x v) }, by simp [define, h], rfl,
    ?_, ?_⟩
  · funext i
    simp only [parents, Slab.get?_modify]
    split
    case isTrue => cases s.frames.get? i <;> rfl
    case isFalse => rfl
  · intro y e'
    obtain ⟨i⟩ := e
    obtain ⟨j⟩ := e'
    simp only [binding?_eq_bind, Slab.get?_modify, Handle.mk.injEq]
    by_cases hj : j = i
    case neg => simp [hj]
    case pos =>
      have hg : s.frames.get? i = some f := present_eq_ok_iff.mp h
      by_cases hy : y = x <;> simp [hj, hg, Frame.get?_define, hy]

section

variable (h : s.Rebinds e x v s')
include h

-- The first frame on a way up that is the one written to, or that binds the name, decides.
theorem Rebinds.findSome?_eq : es.findSome? (s'.binding? y) =
    if y = x ∧ es.find? (fun b => b = e ∨ (s.binding? x b).isSome) = some e then some v
    else es.findSome? (s.binding? y) := by
  by_cases hy : y = x
  case neg =>
    have hb : s'.binding? y = s.binding? y := funext fun e' => by simp [h.binding?_eq, hy]
    simp [hb, hy]
  case pos =>
    subst hy
    induction es
    case nil => simp
    case cons b es hi =>
      by_cases hb : b = e
      case pos => simp [hb, h.binding?_eq]
      case neg =>
        cases hx : s.binding? y b
        case none => simpa [h.binding?_eq, hb, hx] using hi
        case some => simp [h.binding?_eq, hb, hx]

theorem Rebinds.lookup?_eq (hc : s.Chain e' es) : s'.lookup? e' y =
    if y = x ∧ es.find? (fun b => b = e ∨ (s.binding? x b).isSome) = some e then .ok (some v)
    else s.lookup? e' y := by
  rw [lookup?_of_chain hc, lookup?_of_chain (hc.of_parents_eq h.parents_eq), h.findSome?_eq]
  split <;> rfl

end

-- A frame that binds the name already is found by that alone.
theorem find?_or_eq (h : (s.binding? x e).isSome) :
    es.find? (fun b => b = e ∨ (s.binding? x b).isSome) = es.find? fun b =>
      (s.binding? x b).isSome := by
  congr 1
  funext b
  by_cases hb : b = e <;> simp [hb, h]

end Store

namespace Image

variable {i i' : Image} {e e' : FrameId} {es es' : List FrameId} {x : Symbol} {v : Value}

theorem assign_of_find?_none (h : i.store.Chain e es)
    (hb : es.find? (fun b => (i.store.binding? x b).isSome) = none) :
    assign e x v i = .error (.unbound (i.symbols.name x)) i := by
  have hg : (get : Act Image Image) i = .ok i i := rfl
  simp only [assign, Bind.bind, EStateM.bind, hg, Store.binder?_of_chain h, Act.ofExcept, hb]
  rfl

theorem assign_of_find?_some {b : FrameId} (h : i.store.Chain e es)
    (hb : es.find? (fun b => (i.store.binding? x b).isSome) = some b) :
    ∃ s, assign e x v i = .ok () { i with store := s } ∧ i.store.Rebinds b x v s := by
  have hg : (get : Act Image Image) i = .ok i i := rfl
  have hx := List.find?_some hb
  cases hf : i.store.frame b
  case error => simp [Store.binding?, hf, Except.toOption] at hx
  case ok f =>
    obtain ⟨s, hd, hr⟩ := Store.define_rebinds (x := x) (v := v) hf
    refine ⟨s, ?_, hr⟩
    simp only [assign, Bind.bind, EStateM.bind, hg, Store.binder?_of_chain h, Act.ofExcept, hb]
    exact onStore_of_ok hd

-- Scopes form a tree, so a write is seen from many of them. The ways up from the scope of the write
-- and from that of the lookup may merge anywhere.
theorem rebinds_nearest (h : i.store.Chain e es) (h' : i.store.Chain e' es') (x y : Symbol)
    (v : Value) :
    ((∃ i', assign e x v i = .ok () i') ↔ ∃ b ∈ es, (i.store.binding? x b).isSome) ∧
    (∀ i', assign e x v i = .ok () i' → ∃ b s,
      es.find? (fun b => (i.store.binding? x b).isSome) = some b ∧ i' = { i with store := s } ∧
      i.store.Rebinds b x v s ∧ s.lookup? e' y =
        if y = x ∧ es'.find? (fun b => (i.store.binding? x b).isSome) = some b then .ok (some v)
        else i.store.lookup? e' y) ∧
    (∀ fault i', assign e x v i = .error fault i' →
      fault = .unbound (i.symbols.name x) ∧ i' = i) ∧
    ∃ s, Store.define e x v i.store = .ok () s ∧ i.store.Rebinds e x v s ∧ s.lookup? e' y =
      if y = x ∧ es'.find? (fun b => b = e ∨ (i.store.binding? x b).isSome) = some e then
        .ok (some v)
      else i.store.lookup? e' y := by
  have hdef : ∃ s, Store.define e x v i.store = .ok () s ∧ i.store.Rebinds e x v s ∧
      s.lookup? e' y = if y = x ∧
        es'.find? (fun b => b = e ∨ (i.store.binding? x b).isSome) = some e
        then .ok (some v) else i.store.lookup? e' y := by
    have ⟨f, hf⟩ := h.exists_frame
    have ⟨s, hd, hr⟩ := Store.define_rebinds (x := x) (v := v) hf
    exact ⟨s, hd, hr, hr.lookup?_eq h'⟩
  cases hb : es.find? fun b => (i.store.binding? x b).isSome
  case none =>
    have ha := assign_of_find?_none (v := v) h hb
    rw [ha]
    refine ⟨iff_of_false ?_ ?_, ?_, ?_, hdef⟩
    · rintro ⟨_, ⟨⟩⟩
    · rintro ⟨b, hb', hx⟩
      exact List.find?_eq_none.mp hb b hb' hx
    · rintro _ ⟨⟩
    · rintro _ _ ⟨⟩
      exact ⟨rfl, rfl⟩
  case some b =>
    have ⟨s, ha, hr⟩ := assign_of_find?_some (v := v) h hb
    have hx := List.find?_some hb
    rw [ha]
    refine ⟨iff_of_true ⟨_, rfl⟩ ⟨b, List.mem_of_find?_eq_some hb, hx⟩, ?_, ?_, hdef⟩
    · rintro _ ⟨⟩
      refine ⟨b, s, rfl, rfl, hr, ?_⟩
      rw [hr.lookup?_eq h', Store.find?_or_eq hx]
    · rintro _ _ ⟨⟩

-- Two scopes within one. The name is bound in the outer scope and in the second of the inner ones.
def branches (x : Symbol) : Image where
  store := { Store.new 0 1 with frames.entries := #[some { bindings := [(x, .int 1)] },
    some { parent := some ⟨0⟩ }, some { bindings := [(x, .int 2)], parent := some ⟨0⟩ }] }
  symbols := .base

-- An assignment in the first inner scope is seen from the outer one, but not from the second. A
-- definition there is seen from nowhere else.
theorem rebinds_nearest_branches : ∃ i' s, assign ⟨1⟩ ⟨0⟩ (.int 5) (branches ⟨0⟩) = .ok () i' ∧
    i'.store.lookup? ⟨0⟩ ⟨0⟩ = .ok (some (.int 5)) ∧
    i'.store.lookup? ⟨2⟩ ⟨0⟩ = .ok (some (.int 2)) ∧
    Store.define ⟨1⟩ ⟨0⟩ (.int 5) (branches ⟨0⟩).store = .ok () s ∧
    s.lookup? ⟨0⟩ ⟨0⟩ = .ok (some (.int 1)) := by
  have h₀ : (branches ⟨0⟩).store.Chain ⟨0⟩ [⟨0⟩] := .last rfl rfl
  have h₁ : (branches ⟨0⟩).store.Chain ⟨1⟩ [⟨1⟩, ⟨0⟩] := .link rfl rfl h₀
  have h₂ : (branches ⟨0⟩).store.Chain ⟨2⟩ [⟨2⟩, ⟨0⟩] := .link rfl rfl h₀
  obtain ⟨hok, ho, -, hd⟩ := rebinds_nearest h₁ h₀ ⟨0⟩ ⟨0⟩ (.int 5)
  obtain ⟨-, ho', -⟩ := rebinds_nearest h₁ h₂ ⟨0⟩ ⟨0⟩ (.int 5)
  obtain ⟨i', ha⟩ := hok.mpr ⟨⟨0⟩, by simp, rfl⟩
  obtain ⟨_, _, hb, rfl, -, hl⟩ := ho i' ha
  obtain ⟨_, _, hb', he, -, hl'⟩ := ho' _ ha
  obtain ⟨s, hs, -, hls⟩ := hd
  cases hb
  cases hb'
  cases he
  exact ⟨_, s, ha, hl, hl', hs, hls⟩

end Image
end StepLisp
