import StepLisp.Machine.Execute
import StepLisp.Proofs.Renaming.Machine
import StepLisp.Proofs.Store.Collect

namespace StepLisp

variable {exact : Prop} {ρ : Renaming}

theorem Slab.Sound.sweep {α : Type} {s : Slab α} {keep : Nat → Bool} (h : s.Sound) :
    (s.sweep keep).Sound := by
  constructor
  case nodup =>
    refine List.nodup_append.mpr ⟨List.nodup_reverse.mpr dropped_nodup, h.nodup, ?_⟩
    rintro i hi _ hj rfl
    have hs := (mem_dropped_iff.mp <| List.mem_reverse.mp hi).left
    simp [get?, h.vacant i hj] at hs
  case vacant =>
    intro i hi
    simp only [Slab.sweep, Array.getElem?_mapIdx]
    rcases List.mem_append.mp hi with hi | hi
    · obtain ⟨hs, hk⟩ := mem_dropped_iff.mp <| List.mem_reverse.mp hi
      simp [hk, lt_size_of_isSome hs]
    · simp [h.vacant i hi]

-- The part of a renaming between given references.
def Renaming.on (ρ : Renaming) (P P' : Ref → Prop) : Renaming := fun r r' =>
  ρ r r' ∧ P r ∧ P' r'

namespace Store

variable {s s' t t' : Store} {roots roots' : List Ref}

theorem Sound.collect (h : s.Sound) : (s.collect roots).2.Sound where
  cells_nodup := unmarkedCells_nodup
  cells_lt := by
    rintro ⟨i⟩ hi
    have hlt := (mem_unmarkedCells_iff.mp hi).left
    simpa [Store.collect, Store.sweep] using hlt
  strings := h.strings.sweep
  frames := h.frames.sweep
  closures := h.closures.sweep
  continuations := h.continuations.sweep
  foreigns := h.foreigns.sweep

-- The objects that the roots reach are in `t` as they are in `s`.
structure Retains (s : Store) (roots : List Ref) (t : Store) : Prop where
  sound : t.Sound
  object?_eq {r : Ref} {o : Object} : s.Reachable roots r → s.object? r = some o →
    t.object? r = some o

theorem Retains.refl (h : s.Sound) : s.Retains roots s :=
  ⟨h, fun _ => id⟩

theorem Retains.collect (h : s.Sound) : s.Retains roots (s.collect roots).2 := by
  refine ⟨h.collect, fun {r o} hr ho => ?_⟩
  have hf : ¬(s.collect roots).2.IsFree r := fun hf => (isFree_collect_iff.mp hf).right.right hr
  rw [object?_eq_content hf, content?_collect hr]
  exact (object?_eq_some_iff.mp ho).right

theorem Reachable.of_object? {r r' : Ref} {o : Object} (h : s.Reachable roots r)
    (ho : s.object? r = some o) (hr : r' ∈ o.refs) : s.Reachable roots r' := by
  refine .step h ?_
  rw [refs_eq_content, (object?_eq_some_iff.mp ho).right]
  exact hr

theorem Alike.restrict (h : s.Alike exact ρ s') (ht : s.Retains roots t)
    (ht' : s'.Retains roots' t') (hx : exact → t = t') :
    t.Alike exact (ρ.on (s.Reachable roots) (s'.Reachable roots')) t' where
  injective :=
    ⟨fun h₁ h₂ => h.injective.left h₁.left h₂.left, fun h₁ h₂ => h.injective.right h₁.left h₂.left⟩
  objects := by
    rintro r r' ⟨hρ, hr, hr'⟩
    have ⟨o, o', ho, ho', hl⟩ := h.objects hρ
    refine ⟨o, o', ht.object?_eq hr ho, ht'.object?_eq hr' ho', hl.imp fun q hq q' hq' hρ => ?_⟩
    exact ⟨hρ, hr.of_object? ho hq, hr'.of_object? ho' hq'⟩
  sound := ht.sound
  sound' := ht'.sound
  same he := ⟨hx he, fun r r' h' => (h.same he).right r r' h'.left⟩

end Store

namespace Control

variable {c c' : Control} {P P' : Ref → Prop}

theorem forall_roots_iff : (∀ r ∈ c.roots, P r) ↔ (∀ r ∈ c.exp.refs, P r) ∧
    (∀ r ∈ c.val.refs, P r) ∧ (∀ r ∈ c.argl.refs, P r) ∧ (∀ r ∈ c.cont.refs, P r) ∧ P c.env.ref ∧
      ∀ slot ∈ c.stack.slots, ∀ r ∈ slot.refs, P r := by
  simp only [roots, List.mem_append, List.mem_cons, List.mem_flatMap, or_imp, forall_and,
    forall_eq, forall_exists_index, and_imp, and_assoc]
  grind

theorem Alike.restrict (h : c.Alike exact ρ c') (hr : ∀ r ∈ c.roots, P r)
    (hr' : ∀ r ∈ c'.roots, P' r) : c.Alike exact (ρ.on P P') c' := by
  have ⟨hexp, hval, hargl, hcont, henv, hslots⟩ := forall_roots_iff.mp hr
  have ⟨hexp', hval', hargl', hcont', henv', hslots'⟩ := forall_roots_iff.mp hr'
  constructor
  case exp => exact h.exp.imp fun r hr r' hr' hρ => ⟨hρ, hexp r hr, hexp' r' hr'⟩
  case env => exact ⟨h.env, henv, henv'⟩
  case cont => exact h.cont.imp fun r hr r' hr' hρ => ⟨hρ, hcont r hr, hcont' r' hr'⟩
  case val => exact h.val.imp fun r hr r' hr' hρ => ⟨hρ, hval r hr, hval' r' hr'⟩
  case argl => exact h.argl.imp fun r hr r' hr' hρ => ⟨hρ, hargl r hr, hargl' r' hr'⟩
  case slots =>
    exact forall₂_imp_mem h.slots fun slot hs slot' hs' hl =>
      hl.imp fun r hr r' hr' hρ => ⟨hρ, hslots slot hs r hr, hslots' slot' hs' r' hr'⟩
  case same => exact fun he => ⟨(h.same he).left, fun r r' h' => (h.same he).right r r' h'.left⟩

end Control

namespace Machine

variable {m m' : Machine} {k k' : Step}

theorem mem_roots_of_control {r : Ref} (h : r ∈ m.control.roots) : r ∈ m.roots k := by
  simp [roots, h]

theorem store_collectBefore : (m.collectBefore k).image.store =
    if m.image.store.isCollectionDue then (m.image.store.collect (m.roots k)).2
    else m.image.store := by
  unfold collectBefore
  split <;> rfl

theorem collectBefore_eq : m.collectBefore k =
    { m with image := { m.image with store := (m.collectBefore k).image.store } } := by
  unfold collectBefore
  split <;> rfl

theorem retains_collectBefore (hs : m.image.store.Sound) :
    m.image.store.Retains (m.roots k) (m.collectBefore k).image.store := by
  rw [store_collectBefore]
  split
  case isTrue => exact .collect hs
  case isFalse => exact .refl hs

theorem Alike.restrict {s s' : Store} (h : m.Alike exact ρ m') (hk : k.Alike ρ k')
    (hs : m.image.store.Retains (m.roots k) s) (hs' : m'.image.store.Retains (m'.roots k') s')
    (hx : exact → s = s') : ∃ τ,
      { m with image := { m.image with store := s } }.Alike exact τ
        { m' with image := { m'.image with store := s' } } ∧ k.Alike τ k' := by
  refine ⟨_, { h with
    image := ⟨h.image.store.restrict hs hs' hx, h.image.symbols⟩
    global := ⟨h.global, .root (by simp [roots]), .root (by simp [roots])⟩
    control := h.control.restrict (fun r hr => .root <| mem_roots_of_control hr)
      fun r hr => .root <| mem_roots_of_control hr }, ?_⟩
  refine hk.imp fun r hr r' hr' hρ => ⟨hρ, .root ?_, .root ?_⟩
  · simp [roots, hr]
  · simp [roots, hr']

theorem Alike.roots_eq (h : m.Alike exact ρ m') (hk : k.Alike ρ k') (he : exact) :
    m.roots k = m'.roots k' := by
  have ⟨hc, hρ⟩ := h.control.same he
  rw [roots, roots, hc, hk.eq_of_le hρ, hρ _ _ h.global]

theorem Alike.collectBefore (h : m.Alike exact ρ m') (hk : k.Alike ρ k') :
    ∃ τ, (m.collectBefore k).Alike exact τ (m'.collectBefore k') ∧ k.Alike τ k' := by
  have hs : m.image.store.Retains (m.roots k) _ := retains_collectBefore h.image.store.sound
  have hs' : m'.image.store.Retains (m'.roots k') _ := retains_collectBefore h.image.store.sound'
  rw [collectBefore_eq, @collectBefore_eq m']
  refine h.restrict hk hs hs' fun he => ?_
  rw [store_collectBefore, store_collectBefore, h.roots_eq hk he, (h.image.store.same he).left]

end Machine
end StepLisp
