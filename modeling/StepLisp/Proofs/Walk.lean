import Mathlib.Data.List.Forall2
import Mathlib.Data.List.Perm.Subperm

namespace StepLisp

variable {α β : Type} {stop : α → Prop} {next : α → α} {a : α} {l l' : List α}

-- `Walk stop next a l`: the places of the walk that starts at `a`, the one where it stops last.
inductive Walk (stop : α → Prop) (next : α → α) : α → List α → Prop
  | stop {a : α} : stop a → Walk stop next a [a]
  | step {a : α} {l : List α} : ¬stop a → Walk stop next (next a) l → Walk stop next a (a :: l)

namespace Walk

theorem unique (h : Walk stop next a l) (h' : Walk stop next a l') : l = l' := by
  induction h generalizing l'
  case stop hs =>
    cases h'
    case stop => rfl
    case step => contradiction
  case step hs _ hi =>
    cases h'
    case stop => contradiction
    case step h' => rw [hi h']

-- From each place of a walk the rest of it is a walk.
theorem suffix_of_mem {b : α} (h : Walk stop next a l) (hb : b ∈ l) :
    ∃ l', l' <:+ l ∧ Walk stop next b l' := by
  induction h
  case stop hs =>
    obtain rfl := List.mem_singleton.mp hb
    exact ⟨_, List.suffix_rfl, .stop hs⟩
  case step a l hs hw hi =>
    cases hb
    case head => exact ⟨_, List.suffix_rfl, .step hs hw⟩
    case tail hb =>
      have ⟨l', hl, hw'⟩ := hi hb
      exact ⟨l', hl.trans <| List.suffix_cons a l, hw'⟩

theorem nodup (h : Walk stop next a l) : l.Nodup := by
  induction h
  case stop => simp
  case step a l hs hw hi =>
    refine List.nodup_cons.mpr ⟨fun hm => ?_, hi⟩
    have ⟨l', hl, hw'⟩ := hw.suffix_of_mem hm
    have hlen := hl.length_le
    rw [hw'.unique (.step hs hw), List.length_cons] at hlen
    omega

theorem forall_mem {P : α → Prop} (hp : ∀ a, P a → ¬stop a → P (next a))
    (h : Walk stop next a l) (ha : P a) : ∀ b ∈ l, P b := by
  induction h
  case stop => simpa using ha
  case step hs _ hi => simpa [ha] using hi <| hp _ ha hs

-- Two walks in step.
theorem map {stop' : β → Prop} {next' : β → β} {R : α → β → Prop} {b : β}
    (hs : ∀ a b, R a b → (stop a ↔ stop' b)) (hn : ∀ a b, R a b → ¬stop a → R (next a) (next' b))
    (h : Walk stop next a l) (hr : R a b) : ∃ l', Walk stop' next' b l' ∧ List.Forall₂ R l l' := by
  induction h generalizing b
  case stop h => exact ⟨[b], .stop <| hs _ _ hr |>.mp h, .cons hr .nil⟩
  case step h _ hi =>
    have ⟨l', hw, hl⟩ := hi <| hn _ _ hr h
    exact ⟨b :: l', .step (hs _ _ hr |>.not.mp h) hw, .cons hr hl⟩

theorem exists_iff {stop' : β → Prop} {next' : β → β} {R : α → β → Prop} {b : β}
    (hs : ∀ a b, R a b → (stop a ↔ stop' b)) (hn : ∀ a b, R a b → ¬stop a → R (next a) (next' b))
    (hr : R a b) : (∃ l, Walk stop next a l) ↔ ∃ l, Walk stop' next' b l := by
  constructor
  case mp =>
    intro ⟨_, h⟩
    have ⟨l', hw, _⟩ := h.map hs hn hr
    exact ⟨l', hw⟩
  case mpr =>
    intro ⟨_, h⟩
    have ⟨l', hw, _⟩ := h.map (R := flip R) (fun b a hr => (hs a b hr).symm)
      (fun b a hr hb => hn a b hr <| hs a b hr |>.not.mpr hb) hr
    exact ⟨l', hw⟩

-- A walk without end does not stop where it is, and goes on without end.
theorem not_exists (h : ¬∃ l, Walk stop next a l) :
    ¬stop a ∧ ¬∃ l, Walk stop next (next a) l := by
  constructor
  · exact fun hs => h ⟨_, .stop hs⟩
  · intro ⟨l, hw⟩
    exact h ⟨_, .step (fun hs => h ⟨_, .stop hs⟩) hw⟩

-- A function that follows a walk does not depend on its fuel once that is enough for the walk.
theorem stable {F : Nat → α → β} {n : Nat} (hs : ∀ m n a, stop a → F (m + 1) a = F (n + 1) a)
    (hn : ∀ n a, ¬stop a → F (n + 1) a = F n (next a)) (h : Walk stop next a l)
    (hl : l.length ≤ n) : F n a = F l.length a := by
  induction h generalizing n
  case stop h =>
    obtain _ | n := n
    · cases hl
    · exact hs _ _ _ h
  case step a l h _ hi =>
    obtain _ | n := n
    · cases hl
    · rw [List.length_cons, hn _ _ h, hn _ _ h, hi (Nat.le_of_succ_le_succ hl)]

-- What it comes to is decided where the walk stops.
theorem holds {F : Nat → α → β} {P : β → Prop} {n : Nat} (hs : ∀ n a, stop a → P (F (n + 1) a))
    (hn : ∀ n a, ¬stop a → F (n + 1) a = F n (next a)) (h : Walk stop next a l)
    (hl : l.length ≤ n) : P (F n a) := by
  induction h generalizing n <;> obtain _ | n := n
  case stop.zero | step.zero => cases hl
  case stop.succ h => exact hs _ _ h
  case step.succ h _ hi => exact hn _ _ h ▸ hi (Nat.le_of_succ_le_succ hl)

theorem endless {F : Nat → α → β} {n : Nat} {b : β} (hz : ∀ a, F 0 a = b)
    (hn : ∀ n a, ¬stop a → F (n + 1) a = F n (next a)) (h : ¬∃ l, Walk stop next a l) :
    F n a = b := by
  induction n generalizing a
  case zero => exact hz a
  case succ hi => rw [hn _ _ (not_exists h).left, hi (not_exists h).right]

end Walk

theorem length_le_of_lt {n : Nat} {is : List Nat} (hn : is.Nodup) (h : ∀ i ∈ is, i < n) :
    is.length ≤ n := by
  have hs : is ⊆ List.range n := fun i hi => List.mem_range.mpr <| h i hi
  simpa using (hn.subperm hs).length_le

end StepLisp
