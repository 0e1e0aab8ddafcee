import StepLisp.Proofs.Renaming.Store
import StepLisp.Proofs.Store.Chain

namespace StepLisp

variable {exact : Prop} {ρ : Renaming} {v v' : Value}

-- Chains of pairs

namespace Store

variable {s s' : Store} {stop stop' : PairId → Prop} {n : Nat} {i i' : PairId}

namespace Alike

variable (h : s.Alike exact ρ s')
include h

theorem lt_totalCells (hi : ρ i.ref i'.ref) :
    i.index < s.totalCells ∧ i'.index < s'.totalCells := by
  have ⟨c, c', hc, hc', _⟩ := h.cell hi
  have ⟨_, hc⟩ := cells_of_object? hc
  have ⟨_, hc'⟩ := cells_of_object? hc'
  exact ⟨(Array.getElem?_eq_some_iff.mp hc).choose, (Array.getElem?_eq_some_iff.mp hc').choose⟩

theorem stops_iff (hs : ∀ i i', ρ i.ref i'.ref → (stop i ↔ stop' i')) (hv : v.Alike ρ v') :
    s.Stops stop n v ↔ s'.Stops stop' n v' := by
  induction n generalizing v v' <;> cases hv
  case zero.pair hi => simp [Stops.pair_iff]
  case succ.pair n hn i i' hi => simp [Stops.pair_iff, hs i i' hi, hn (h.cdr hi)]
  all_goals rw [Stops.atom_iff rfl, Stops.atom_iff rfl]

-- The walks on the two sides come to an end together, within the cells of either side.
theorem stops_cases (hs : ∀ i i', ρ i.ref i'.ref → (stop i ↔ stop' i')) (hv : v.Alike ρ v') :
    (∃ n, s.Stops stop n v ∧ s'.Stops stop' n v' ∧ n ≤ s.totalCells ∧ n ≤ s'.totalCells) ∨
      (¬∃ n, s.Stops stop n v) ∧ ¬∃ n, s'.Stops stop' n v' := by
  by_cases he : ∃ n, s.Stops stop n v
  case pos =>
    obtain ⟨n, hn⟩ := he
    have hn' := h.stops_iff hs hv |>.mp hn
    refine .inl ⟨n, hn, hn', hn.le (P := fun v => ∃ v', v.Alike ρ v') ?_ ⟨v', hv⟩,
      hn'.le (P := fun v' => ∃ v, v.Alike ρ v') ?_ ⟨v, hv⟩⟩
    · rintro i ⟨_, hi | hi⟩
      exact ⟨(h.lt_totalCells ‹_›).left, _, h.cdr ‹_›⟩
    · rintro i ⟨_, hi | hi⟩
      exact ⟨(h.lt_totalCells ‹_›).right, _, h.cdr ‹_›⟩
  case neg =>
    refine .inr ⟨he, fun ⟨n, hn'⟩ => he ⟨n, ?_⟩⟩
    exact h.stops_iff hs hv |>.mpr hn'

end Alike

-- Lists

theorem Alike.collectList {seen seen' : List Value} {fuel : Nat} (h : s.Alike exact ρ s')
    (hs : List.Forall₂ (Value.Alike ρ) seen seen') (hv : v.Alike ρ v') :
    Option.Rel (List.Forall₂ (Value.Alike ρ)) (s.collectList fuel seen v)
      (s'.collectList fuel seen' v') := by
  induction fuel generalizing seen seen' v v' <;> cases hv
  case zero.nil | succ.nil => exact .some <| List.rel_reverse hs
  case succ.pair fuel hf i i' hi => exact hf (.cons (h.car hi) hs) (h.cdr hi)
  all_goals exact .none

theorem Alike.toList? (h : s.Alike exact ρ s') (hv : v.Alike ρ v') :
    Option.Rel (List.Forall₂ (Value.Alike ρ)) (s.toList? v) (s'.toList? v') := by
  unfold Store.toList?
  rcases h.stops_cases (fun _ _ _ => Iff.rfl) hv with ⟨n, hn, hn', hle, hle'⟩ | ⟨hn, hn'⟩
  case inl =>
    rw [collectList_of_stops hn (by omega), collectList_of_stops hn' (by omega)]
    exact h.collectList .nil hv
  case inr =>
    rw [collectList_of_not_stops hn, collectList_of_not_stops hn']
    exact .none

-- Scopes

variable {x : Symbol} {e e' : FrameId} {l : List FrameId} {fuel : Nat}

namespace Alike

variable (h : s.Alike exact ρ s')
include h

theorem settles_iff (he : ρ e.ref e'.ref) : s.Settles x e ↔ s'.Settles x e' := by
  have ⟨f, f', hf, hf', hl⟩ := h.frame he
  have hx := hl.get? (x := x)
  have hp := hl.parent
  simp only [Settles, frame_of_object? hf, frame_of_object? hf', Except.ok.injEq, forall_eq']
  generalize f.get? x = v, f'.get? x = v', f.parent = p, f'.parent = p' at hx hp
  cases hx <;> cases hp <;> simp

theorem parentOf (he : ρ e.ref e'.ref) : ρ (s.parentOf e).ref (s'.parentOf e').ref := by
  have ⟨f, f', hf, hf', hl⟩ := h.frame he
  have hp := hl.parent
  simp only [Store.parentOf, frame_of_object? hf, frame_of_object? hf']
  generalize f.parent = p, f'.parent = p' at hp
  cases hp
  case none => exact he
  case some hp => exact hp

theorem lt_chainBound (he : ρ e.ref e'.ref) :
    e.index < s.frames.entries.size ∧ e'.index < s'.frames.entries.size := by
  have ⟨f, f', hf, hf', _⟩ := h.frame he
  rw [object?_frame, Option.map_eq_some_iff] at hf hf'
  have ⟨_, hf, _⟩ := hf
  have ⟨_, hf', _⟩ := hf'
  exact ⟨Slab.lt_size_of_isSome (hf ▸ rfl), Slab.lt_size_of_isSome (hf' ▸ rfl)⟩

-- The lookups on the two sides settle together, within the frames of either side.
theorem scope_cases (x : Symbol) (he : ρ e.ref e'.ref) :
    (∃ l l', Walk (s.Settles x) s.parentOf e l ∧ Walk (s'.Settles x) s'.parentOf e' l' ∧
      l.length = l'.length ∧ l.length ≤ s.chainBound ∧ l'.length ≤ s'.chainBound) ∨
    (¬∃ l, Walk (s.Settles x) s.parentOf e l) ∧ ¬∃ l, Walk (s'.Settles x) s'.parentOf e' l := by
  have hs (e e' : FrameId) (he : ρ e.ref e'.ref) : s.Settles x e ↔ s'.Settles x e' :=
    h.settles_iff he
  have hn (e e' : FrameId) (he : ρ e.ref e'.ref) (_ : ¬s.Settles x e) :
      ρ (s.parentOf e).ref (s'.parentOf e').ref := h.parentOf he
  by_cases hw : ∃ l, Walk (s.Settles x) s.parentOf e l
  case neg => exact .inr ⟨hw, (Walk.exists_iff hs hn he).not.mp hw⟩
  case pos =>
    obtain ⟨l, hw⟩ := hw
    have ⟨l', hw', hl⟩ := hw.map hs hn he
    refine .inl ⟨l, l', hw, hw', hl.length_eq, Nat.le_succ_of_le ?_, Nat.le_succ_of_le ?_⟩
    · have hm := hw.forall_mem (P := fun e => ∃ e', ρ e.ref e'.ref)
        (fun _ ⟨_, he⟩ _ => ⟨_, h.parentOf he⟩) ⟨e', he⟩
      exact Handle.length_le hw.nodup fun e he => (h.lt_chainBound (hm e he).choose_spec).left
    · have hm := hw'.forall_mem (P := fun e' => ∃ e, ρ e.ref e'.ref)
        (fun _ ⟨_, he⟩ _ => ⟨_, h.parentOf he⟩) ⟨e, he⟩
      exact Handle.length_le hw'.nodup fun e he => (h.lt_chainBound (hm e he).choose_spec).right

theorem binderFrom (he : ρ e.ref e'.ref) :
    Matches (Option.Rel fun e e' => ρ e.ref e'.ref) (s.binderFrom x fuel e)
      (s'.binderFrom x fuel e') := by
  induction fuel generalizing e e'
  case zero => exact .error rfl
  case succ hi =>
    have ⟨f, f', hf, hf', hl⟩ := h.frame he
    have hx := hl.get? (x := x)
    have hp := hl.parent
    simp only [Store.binderFrom, frame_of_object? hf, frame_of_object? hf', Bind.bind, Except.bind]
    generalize f.get? x = v, f'.get? x = v', f.parent = p, f'.parent = p' at hx hp
    cases hx
    case some hv => exact .ok <| .some he
    case none =>
      cases hp
      case none => exact .ok .none
      case some hp => exact hi hp

theorem binder? (he : ρ e.ref e'.ref) :
    Matches (Option.Rel fun e e' => ρ e.ref e'.ref) (s.binder? e x) (s'.binder? e' x) := by
  unfold Store.binder?
  rcases h.scope_cases x he with ⟨l, l', hw, hw', hl, hb, hb'⟩ | ⟨hw, hw'⟩
  case inl =>
    rw [hw.stable (F := s.binderFrom x) (fun _ _ _ => binderFrom_succ_of_settles)
        (fun _ _ => binderFrom_succ_of_not_settles) hb,
      hw'.stable (F := s'.binderFrom x) (fun _ _ _ => binderFrom_succ_of_settles)
        (fun _ _ => binderFrom_succ_of_not_settles) hb', hl]
    exact h.binderFrom he
  case inr =>
    rw [Walk.endless (F := s.binderFrom x) (fun _ => rfl)
        (fun _ _ => binderFrom_succ_of_not_settles) hw,
      Walk.endless (F := s'.binderFrom x) (fun _ => rfl)
        (fun _ _ => binderFrom_succ_of_not_settles) hw']
    exact .error rfl

theorem bound {b b' : Option FrameId} (hb : Option.Rel (fun e e' => ρ e.ref e'.ref) b b') :
    Matches (Option.Rel (Value.Alike ρ)) (s.bound x b) (s'.bound x b') := by
  cases hb
  case none => exact .ok .none
  case some hb =>
    have ⟨f, f', hf, hf', hl⟩ := h.frame hb
    rw [bound_of_frame (frame_of_object? hf), bound_of_frame (frame_of_object? hf')]
    exact .ok hl.get?

theorem lookup? (he : ρ e.ref e'.ref) :
    Matches (Option.Rel (Value.Alike ρ)) (s.lookup? e x) (s'.lookup? e' x) := by
  rw [lookup?_eq, lookup?_eq]
  exact (h.binder? he).bind fun _ _ => h.bound

theorem ancestor {n : Nat} (he : ρ e.ref e'.ref) :
    Matches (fun e e' => ρ e.ref e'.ref) (s.ancestor e n) (s'.ancestor e' n) := by
  induction n generalizing e e'
  case zero => exact .ok he
  case succ hi =>
    have ⟨f, f', hf, hf', hl⟩ := h.frame he
    have hp := hl.parent
    simp only [Store.ancestor, frame_of_object? hf, frame_of_object? hf', Bind.bind, Except.bind]
    generalize f.parent = p, f'.parent = p' at hp
    cases hp
    case none => exact .error rfl
    case some hp => exact hi hp

-- Parts of values

theorem carOf (hv : v.Alike ρ v') : Matches (Value.Alike ρ) (s.carOf v) (s'.carOf v') := by
  cases hv
  case nil => exact .ok .nil
  case pair hi => exact .ok <| h.car hi
  all_goals exact .error rfl

theorem cdrOf (hv : v.Alike ρ v') : Matches (Value.Alike ρ) (s.cdrOf v) (s'.cdrOf v') := by
  cases hv
  case nil => exact .ok .nil
  case pair hi => exact .ok <| h.cdr hi
  all_goals exact .error rfl

theorem uncons? (hv : v.Alike ρ v') :
    Option.Rel (fun p p' => p.1.Alike ρ p'.1 ∧ p.2.Alike ρ p'.2) (s.uncons? v) (s'.uncons? v') := by
  cases hv
  case pair hi => exact .some ⟨h.car hi, h.cdr hi⟩
  all_goals exact .none

end Alike
end Store
end StepLisp
