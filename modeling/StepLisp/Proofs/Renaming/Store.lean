import StepLisp.Proofs.Renaming.Respects
import StepLisp.Proofs.Store.Sound

namespace StepLisp

open Act

variable {exact : Prop} {ρ τ : Renaming} {r r' : Ref} {v v' w w' : Value}

namespace Store

variable {s s' t t' : Store} {o o' : Object}

structure Alike (exact : Prop) (ρ : Renaming) (s s' : Store) : Prop where
  injective : ρ.Injective
  objects {r r' : Ref} : ρ r r' →
    ∃ o o', s.object? r = some o ∧ s'.object? r' = some o' ∧ o.Alike ρ o'
  sound : s.Sound
  sound' : s'.Sound
  same : exact → s = s' ∧ ρ ≤ Eq

def likeness (exact : Prop) : Likeness Store where
  exact := exact
  lenient := False
  alike := Alike exact
  idle _ _ _ := False

namespace Alike

variable (h : s.Alike exact ρ s')
include h

-- Both sides put an object under references that were fresh.
theorem insert (hr : s.object? r = none) (hr' : s'.object? r' = none) (hp : s.Puts r o t)
    (hp' : s'.Puts r' o' t') (ho : o.Alike ρ o') (hx : exact → t = t' ∧ r = r') :
    t.Alike exact (ρ.insert r r') t' := by
  have hne {q q'} (hq : ρ q q') : q ≠ r ∧ q' ≠ r' := by
    have ⟨_, _, ho, ho', _⟩ := h.objects hq
    constructor <;> rintro rfl <;> simp_all
  constructor
  case injective =>
    constructor
    case left =>
      rintro q₁ q₂ q' (h₁ | ⟨rfl, rfl⟩) (h₂ | ⟨rfl, h₂⟩)
      · exact h.injective.left h₁ h₂
      · exact absurd h₂ (hne h₁).right
      · exact absurd rfl (hne h₂).right
      · rfl
    case right =>
      rintro q q₁ q₂ (h₁ | ⟨rfl, rfl⟩) (h₂ | ⟨h₂, rfl⟩)
      · exact h.injective.right h₁ h₂
      · exact absurd h₂ (hne h₁).left
      · exact absurd rfl (hne h₂).left
      · rfl
  case objects =>
    rintro q q' (hq | ⟨rfl, rfl⟩)
    · have ⟨p, p', ho, ho', hl⟩ := h.objects hq
      refine ⟨p, p', ?_, ?_, hl.mono Renaming.le_insert⟩
      · rw [hp.object?_eq, if_neg (hne hq).left, ho]
      · rw [hp'.object?_eq, if_neg (hne hq).right, ho']
    · exact ⟨o, o', by simp [hp.object?_eq], by simp [hp'.object?_eq], ho.mono Renaming.le_insert⟩
  case sound => exact hp.sound
  case sound' => exact hp'.sound
  case same =>
    intro he
    refine ⟨(hx he).left, ?_⟩
    rintro q q' (hq | ⟨rfl, rfl⟩)
    · exact (h.same he).right q q' hq
    · exact (hx he).right

-- Both sides replace an object.
theorem replace (hr : ρ r r') (hp : s.Puts r o t) (hp' : s'.Puts r' o' t') (ho : o.Alike ρ o')
    (hx : exact → t = t') : t.Alike exact ρ t' := by
  constructor
  case injective => exact h.injective
  case objects =>
    intro q q' hq
    rw [hp.object?_eq, hp'.object?_eq]
    by_cases he : q = r
    · have he' := (h.injective.eq_iff hr hq).mp he
      exact ⟨o, o', by simp [he], by simp [he'], ho⟩
    · have he' := (h.injective.eq_iff hr hq).not.mp he
      simpa [he, he'] using h.objects hq
  case sound => exact hp.sound
  case sound' => exact hp'.sound
  case same => exact fun he => ⟨hx he, (h.same he).right⟩

-- Both sides put an object where the renaming does not look.
theorem aside (hr : s.object? r = none) (hr' : s'.object? r' = none) (hp : s.Puts r o t)
    (hp' : s'.Puts r' o' t') (hx : ¬exact) : t.Alike exact ρ t' := by
  refine { h with
    objects := fun {q q'} hq => ?_
    sound := hp.sound
    sound' := hp'.sound
    same := fun he => absurd he hx }
  have ⟨p, p', ho, ho', hl⟩ := h.objects hq
  refine ⟨p, p', ?_, ?_, hl⟩
  · rw [hp.object?_eq, if_neg (by rintro rfl; simp_all), ho]
  · rw [hp'.object?_eq, if_neg (by rintro rfl; simp_all), ho']

-- Reads

theorem cell {i i' : PairId} (hi : ρ i.ref i'.ref) : ∃ c c', s.object? i.ref = some (.cell c) ∧
    s'.object? i'.ref = some (.cell c') ∧ c.Alike ρ c' := by
  have ⟨_, _, ho, ho', hl⟩ := h.objects hi
  have hk := kind_of_object? ho
  cases hl <;> cases hk
  exact ⟨_, _, ho, ho', ‹_›⟩

theorem car {i i' : PairId} (hi : ρ i.ref i'.ref) : (s.car i).Alike ρ (s'.car i') := by
  have ⟨c, c', hc, hc', hl⟩ := h.cell hi
  rw [car_of_object? hc, car_of_object? hc']
  exact hl.car

theorem cdr {i i' : PairId} (hi : ρ i.ref i'.ref) : (s.cdr i).Alike ρ (s'.cdr i') := by
  have ⟨c, c', hc, hc', hl⟩ := h.cell hi
  rw [cdr_of_object? hc, cdr_of_object? hc']
  exact hl.cdr

theorem string {i i' : StringId} (hi : ρ i.ref i'.ref) :
    ∃ text, s.string i = .ok text ∧ s'.string i' = .ok text := by
  have ⟨_, _, ho, ho', hl⟩ := h.objects hi
  have hk := kind_of_object? ho
  cases hl <;> cases hk
  exact ⟨_, string_of_object? ho, string_of_object? ho'⟩

theorem frame {i i' : FrameId} (hi : ρ i.ref i'.ref) : ∃ f f', s.object? i.ref = some (.frame f) ∧
    s'.object? i'.ref = some (.frame f') ∧ f.Alike ρ f' := by
  have ⟨_, _, ho, ho', hl⟩ := h.objects hi
  have hk := kind_of_object? ho
  cases hl <;> cases hk
  exact ⟨_, _, ho, ho', ‹_›⟩

theorem closure {i i' : ClosureId} (hi : ρ i.ref i'.ref) :
    ∃ c c', s.object? i.ref = some (.closure c) ∧ s'.object? i'.ref = some (.closure c') ∧
      c.Alike ρ c' := by
  have ⟨_, _, ho, ho', hl⟩ := h.objects hi
  have hk := kind_of_object? ho
  cases hl <;> cases hk
  exact ⟨_, _, ho, ho', ‹_›⟩

theorem continuation {i i' : ContinuationId} (hi : ρ i.ref i'.ref) :
    ∃ k k', s.object? i.ref = some (.continuation k) ∧
      s'.object? i'.ref = some (.continuation k') ∧ k.Alike ρ k' := by
  have ⟨_, _, ho, ho', hl⟩ := h.objects hi
  have hk := kind_of_object? ho
  cases hl <;> cases hk
  exact ⟨_, _, ho, ho', ‹_›⟩

theorem foreign {i i' : ForeignId} (hi : ρ i.ref i'.ref) :
    ∃ f, s.foreign i = .ok f ∧ s'.foreign i' = .ok f := by
  have ⟨_, _, ho, ho', hl⟩ := h.objects hi
  have hk := kind_of_object? ho
  cases hl <;> cases hk
  exact ⟨_, foreign_of_object? ho, foreign_of_object? ho'⟩

end Alike

-- Allocations

theorem alloc_error {fault : Fault} (h : alloc v w s = .error fault t) :
    (∃ n, fault = .heapExhausted n) ∧ t = { s with allocations := s.allocations + 1 } := by
  simp only [alloc] at h
  split at h
  case h_1 => cases h
  case h_2 =>
    split at h <;> cases h
    exact ⟨⟨_, rfl⟩, rfl⟩

theorem alloc_respects (hv : v.Alike ρ v') (hw : w.Alike ρ w') :
    Respects (likeness exact) ρ (alloc v w) (alloc v' w') fun τ i i' => τ i.ref i'.ref := by
  intro s s' h
  have hx : exact → alloc v w s = alloc v' w' s' := by
    intro he
    have ⟨hs, hρ⟩ := h.same he
    rw [hs, hv.eq_of_le hρ, hw.eq_of_le hρ]
  cases ha : alloc v w s <;> cases ha' : alloc v' w' s' <;> rw [ha, ha'] at hx
  case ok.ok =>
    have ⟨hi, hp⟩ := alloc_puts h.sound ha
    have ⟨hi', hp'⟩ := alloc_puts h.sound' ha'
    refine .ok Renaming.le_insert (h.insert hi hi' hp hp' (.cell ⟨hv, hw⟩) fun he => ?_)
      Renaming.insert_self
    cases hx he
    exact ⟨rfl, rfl⟩
  case ok.error =>
    have ⟨⟨n, hf⟩, _⟩ := alloc_error ha'
    exact hf ▸ .exhausted' fun he => nomatch hx he
  case error.ok =>
    have ⟨⟨n, hf⟩, _⟩ := alloc_error ha
    exact hf ▸ .exhausted fun he => nomatch hx he
  case error.error =>
    have ⟨⟨n, hf⟩, ht⟩ := alloc_error ha
    subst hf
    by_cases he : exact
    case neg => exact .exhausted he
    case pos =>
      cases hx he
      have ⟨hs, hρ⟩ := h.same he
      subst hs ht
      exact .fault (le_refl ρ) (.refl rfl)
        ⟨h.injective, h.objects, { h.sound with }, { h.sound with }, fun _ => ⟨rfl, hρ⟩⟩

theorem cons_respects (hv : v.Alike ρ v') (hw : w.Alike ρ w') :
    Respects (likeness exact) ρ (cons v w) (cons v' w') Value.Alike :=
  (alloc_respects hv hw).bind fun _ _ _ _ hi => .pure <| .pair hi

theorem consAll_respects {vs vs' : List Value} (hv : List.Forall₂ (Value.Alike ρ) vs vs')
    (hw : w.Alike ρ w') :
    Respects (likeness exact) ρ (consAll vs w) (consAll vs' w') Value.Alike := by
  induction vs generalizing vs' ρ w w' <;> cases hv
  case nil => exact .pure hw
  case cons hi _ _ h hv =>
    exact (cons_respects h hw).bind fun _ _ _ hρ hw =>
      hi (hv.imp fun _ _ h => h.mono hρ) hw

theorem list_respects {vs vs' : List Value} (hv : List.Forall₂ (Value.Alike ρ) vs vs') :
    Respects (likeness exact) ρ (list vs) (list vs') Value.Alike :=
  consAll_respects (List.rel_reverse hv) .nil

-- An allocation that cannot fail.
theorem Alike.agree_insert {α : Type} {x x' : Act Store α} {A : Renaming → α → α → Prop}
    {a a' : α} (h : s.Alike exact ρ s') (hr : x s = .ok a t) (hr' : x' s' = .ok a' t')
    (hn : s.object? r = none) (hn' : s'.object? r' = none) (hp : s.Puts r o t)
    (hp' : s'.Puts r' o' t') (ho : o.Alike ρ o') (hx : ρ ≤ Eq → x = x') (hi : a = a' → r = r')
    (ha : A (ρ.insert r r') a a') : Agree (likeness exact) ρ A (x s) (x' s') := by
  rw [hr, hr']
  refine .ok Renaming.le_insert (h.insert hn hn' hp hp' ho fun he => ?_) ha
  have ⟨hs, hρ⟩ := h.same he
  rw [hs, hx hρ, hr'] at hr
  cases hr
  exact ⟨rfl, hi rfl⟩

theorem allocString_respects {text : String} :
    Respects (likeness exact) ρ (allocString text) (allocString text) Value.Alike := by
  intro s s' h
  have ⟨i, t, hr, hn, hp⟩ := allocString_puts text h.sound
  have ⟨i', t', hr', hn', hp'⟩ := allocString_puts text h.sound'
  exact h.agree_insert hr hr' hn hn' hp hp' (.string text) (fun _ => rfl) (fun | rfl => rfl)
    (.string Renaming.insert_self)

theorem allocFrame_respects {parent parent' : Option FrameId}
    (hp : Option.Rel (fun e e' => ρ e.ref e'.ref) parent parent') :
    Respects (likeness exact) ρ (allocFrame parent) (allocFrame parent')
      fun τ i i' => τ i.ref i'.ref := by
  intro s s' h
  have ⟨i, t, hr, hn, hp⟩ := allocFrame_puts parent h.sound
  have ⟨i', t', hr', hn', hp'⟩ := allocFrame_puts parent' h.sound'
  refine h.agree_insert hr hr' hn hn' hp hp' (.frame ⟨.nil, ‹_›⟩) (fun hρ => ?_) (fun | rfl => rfl)
    Renaming.insert_self
  cases ‹Option.Rel ..›
  case none => rfl
  case some he => rw [Handle.ref_inj.mp <| hρ _ _ he]

theorem allocClosure_respects {c c' : Closure} (hc : c.Alike ρ c') :
    Respects (likeness exact) ρ (allocClosure c) (allocClosure c') Value.Alike := by
  intro s s' h
  have ⟨i, t, hr, hn, hp⟩ := allocClosure_puts c h.sound
  have ⟨i', t', hr', hn', hp'⟩ := allocClosure_puts c' h.sound'
  exact h.agree_insert hr hr' hn hn' hp hp' (.closure hc) (fun hρ => by rw [hc.eq_of_le hρ])
    (fun | rfl => rfl) (.closure Renaming.insert_self)

theorem allocContinuation_respects {k k' : Continuation} (hk : k.Alike ρ k') :
    Respects (likeness exact) ρ (allocContinuation k) (allocContinuation k') Value.Alike := by
  intro s s' h
  have ⟨i, t, hr, hn, hp⟩ := allocContinuation_puts k h.sound
  have ⟨i', t', hr', hn', hp'⟩ := allocContinuation_puts k' h.sound'
  exact h.agree_insert hr hr' hn hn' hp hp' (.continuation hk) (fun hρ => by rw [hk.eq_of_le hρ])
    (fun | rfl => rfl) (.continuation Renaming.insert_self)

theorem allocForeign_respects {f : Foreign} :
    Respects (likeness exact) ρ (allocForeign f) (allocForeign f) Value.Alike := by
  intro s s' h
  have ⟨i, t, hr, hn, hp⟩ := allocForeign_puts f h.sound
  have ⟨i', t', hr', hn', hp'⟩ := allocForeign_puts f h.sound'
  exact h.agree_insert hr hr' hn hn' hp hp' (.foreign f) (fun _ => rfl) (fun | rfl => rfl)
    (.foreign Renaming.insert_self)

-- Assignments

theorem Alike.setCar {i i' : PairId} (h : s.Alike exact ρ s') (hi : ρ i.ref i'.ref)
    (hv : v.Alike ρ v') : (s.setCar i v).Alike exact ρ (s'.setCar i' v') := by
  have ⟨c, c', hc, hc', hl⟩ := h.cell hi
  refine h.replace hi (setCar_puts h.sound hc) (setCar_puts h.sound' hc') (.cell ⟨hv, hl.cdr⟩) ?_
  intro he
  have ⟨hs, hρ⟩ := h.same he
  rw [hs, Handle.ref_inj.mp <| hρ _ _ hi, hv.eq_of_le hρ]

theorem Alike.setCdr {i i' : PairId} (h : s.Alike exact ρ s') (hi : ρ i.ref i'.ref)
    (hv : v.Alike ρ v') : (s.setCdr i v).Alike exact ρ (s'.setCdr i' v') := by
  have ⟨c, c', hc, hc', hl⟩ := h.cell hi
  refine h.replace hi (setCdr_puts h.sound hc) (setCdr_puts h.sound' hc') (.cell ⟨hl.car, hv⟩) ?_
  intro he
  have ⟨hs, hρ⟩ := h.same he
  rw [hs, Handle.ref_inj.mp <| hρ _ _ hi, hv.eq_of_le hρ]

-- An assignment that succeeds on both sides.
theorem Alike.agree_replace {x x' : Act Store Unit} (h : s.Alike exact ρ s') (hr : ρ r r')
    (hx : x s = .ok () t) (hx' : x' s' = .ok () t') (hp : s.Puts r o t) (hp' : s'.Puts r' o' t')
    (ho : o.Alike ρ o') (he : ρ ≤ Eq → x = x') :
    Agree (likeness exact) ρ (fun υ _ _ => υ = ρ ∧ True) (x s) (x' s') := by
  rw [hx, hx']
  refine .ok (le_refl ρ) (h.replace hr hp hp' ho fun hex => ?_) ⟨rfl, trivial⟩
  have ⟨hs, hρ⟩ := h.same hex
  rw [hs, he hρ, hx'] at hx
  cases hx
  rfl

theorem define_steady {e e' : FrameId} {x : Symbol} (he : ρ e.ref e'.ref) (hv : v.Alike ρ v') :
    Steady (likeness exact) ρ (define e x v) (define e' x v') fun _ _ => True := by
  intro s s' h
  have ⟨f, f', hf, hf', hl⟩ := h.frame he
  have ⟨t, hr, hp⟩ := define_puts (x := x) (v := v) h.sound hf
  have ⟨t', hr', hp'⟩ := define_puts (x := x) (v := v') h.sound' hf'
  refine h.agree_replace he hr hr' hp hp' (.frame <| hl.define hv) fun hρ => ?_
  rw [Handle.ref_inj.mp <| hρ _ _ he, hv.eq_of_le hρ]

theorem markClosure_steady {i i' : ClosureId} (hi : ρ i.ref i'.ref) :
    Steady (likeness exact) ρ (markClosure i) (markClosure i') fun _ _ => True := by
  intro s s' h
  have ⟨c, c', hc, hc', hl⟩ := h.closure hi
  have ⟨t, hr, hp⟩ := markClosure_puts h.sound hc
  have ⟨t', hr', hp'⟩ := markClosure_puts h.sound' hc'
  exact h.agree_replace hi hr hr' hp hp' (.closure { hl with special := rfl })
    fun hρ => by rw [Handle.ref_inj.mp <| hρ _ _ hi]

theorem markContinuation_steady {i i' : ContinuationId} (hi : ρ i.ref i'.ref) :
    Steady (likeness exact) ρ (markContinuation i) (markContinuation i') fun _ _ => True := by
  intro s s' h
  have ⟨k, k', hk, hk', hl⟩ := h.continuation hi
  have ⟨t, hr, hp⟩ := markContinuation_puts h.sound hk
  have ⟨t', hr', hp'⟩ := markContinuation_puts h.sound' hk'
  exact h.agree_replace hi hr hr' hp hp' (.continuation { hl with special := rfl })
    fun hρ => by rw [Handle.ref_inj.mp <| hρ _ _ hi]

end Store
end StepLisp
