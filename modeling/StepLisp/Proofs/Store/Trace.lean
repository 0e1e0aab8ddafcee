import Mathlib.Data.List.TakeWhile
import Mathlib.Order.Basic
import StepLisp.Proofs.Store.Object

namespace StepLisp

namespace Store

variable {s : Store} {roots : List Ref} {r : Ref}

-- The number of places of one kind.
def extent (s : Store) : Kind → Nat
  | .pair => s.cells.size
  | .string => s.strings.entries.size
  | .frame => s.frames.entries.size
  | .closure => s.closures.entries.size
  | .continuation => s.continuations.entries.size
  | .foreign => s.foreigns.entries.size

theorem content?_eq_none_of_extent (h : s.extent r.kind ≤ r.index) : s.content? r = none := by
  obtain ⟨kind, i⟩ := r
  cases kind <;> simp_all [content?, extent, Slab.get?]

theorem lt_extent_of_content? {o : Object} (h : s.content? r = some o) :
    r.index < s.extent r.kind := by
  by_contra hc
  simp [content?_eq_none_of_extent (Nat.le_of_not_lt hc)] at h

theorem refs_eq_nil_of_extent (h : s.extent r.kind ≤ r.index) : s.refs r = [] := by
  simp [refs_eq_content, content?_eq_none_of_extent h]

end Store

namespace Marks

variable {s : Store} {m : Marks} {r r' : Ref}

-- Marks that have a flag for each place of a store.
def Covers (m : Marks) (s : Store) : Prop :=
  ∀ kind, (m.flags kind).size = s.extent kind

def Marked (m : Marks) (r : Ref) : Prop :=
  (m.flags r.kind)[r.index]? = some true

-- The number of places that are not marked yet.
def unmarked (m : Marks) : Nat :=
  m.pairs.count false + m.strings.count false + m.frames.count false + m.closures.count false +
    m.continuations.count false + m.foreigns.count false

theorem none_covers : (Marks.none s).Covers s := by
  intro kind
  cases kind <;> simp [Marks.none, flags, Store.extent]

theorem not_marked_none : ¬(Marks.none s).Marked r := by
  obtain ⟨kind, i⟩ := r
  cases kind <;> simp [Marks.none, Marked, flags, Array.getElem?_replicate]

theorem unmarked_none (s : Store) : (Marks.none s).unmarked = s.places := by
  simp [Marks.none, unmarked, Store.places]

theorem isDone_iff : m.isDone r ↔ m.Marked r ∨ (m.flags r.kind).size ≤ r.index := by
  simp only [isDone, Marked, Array.getD_eq_getD_getElem?]
  by_cases h : r.index < (m.flags r.kind).size
  case pos => simp [h, Nat.not_le.mpr h]
  case neg => simp [Nat.le_of_not_lt h]

theorem Marked.isDone (h : m.Marked r) : m.isDone r :=
  isDone_iff.mpr <| .inl h

theorem flags_mark (kind : Kind) : (m.mark r).flags kind =
    if kind = r.kind then (m.flags kind).setIfInBounds r.index true else m.flags kind := by
  obtain ⟨k, i⟩ := r
  cases k <;> cases kind <;> rfl

theorem Covers.mark (h : m.Covers s) : (m.mark r).Covers s := by
  intro kind
  rw [flags_mark]
  split <;> simp [h kind]

theorem marked_mark_iff (h : ¬m.isDone r) : (m.mark r).Marked r' ↔ r' = r ∨ m.Marked r' := by
  simp only [isDone_iff, not_or, Nat.not_le] at h
  obtain ⟨k, i⟩ := r
  obtain ⟨k', j⟩ := r'
  simp only [Marked, flags_mark, Ref.mk.injEq]
  by_cases hk : k' = k
  case neg => simp [hk]
  case pos =>
    subst hk
    by_cases hj : j = i
    case pos => subst hj; simp [h.right]
    case neg => simp [hj, Array.getElem?_setIfInBounds_ne (Ne.symm hj)]

theorem isDone_mark (h : m.isDone r') : (m.mark r).isDone r' := by
  rw [isDone_iff] at h ⊢
  simp only [Marked, flags_mark] at h ⊢
  split
  case isTrue hk =>
    by_cases hi : r.index = r'.index <;> by_cases hb : r'.index < (m.flags r'.kind).size <;>
      simp_all
  case isFalse => exact h

theorem count_setIfInBounds_true {flags : Array Bool} {i : Nat} (h : flags[i]? = some false) :
    (flags.setIfInBounds i true).count false + 1 = flags.count false := by
  have hi : i < flags.size := Array.getElem?_eq_some_iff.mp h |>.1
  have hf : flags[i] = false := Array.getElem?_eq_some_iff.mp h |>.2
  have hc : 0 < flags.count false := Array.count_pos_iff.mpr (hf ▸ Array.getElem_mem hi)
  rw [Array.setIfInBounds_def, dif_pos hi, Array.count_set]
  simp [hf]
  omega

theorem unmarked_mark (h : ¬m.isDone r) : (m.mark r).unmarked + 1 = m.unmarked := by
  have hf : (m.flags r.kind)[r.index]? = some false := by
    simp only [isDone_iff, Marked, not_or, Nat.not_le] at h
    have ⟨hm, hr⟩ := h
    rw [Array.getElem?_eq_getElem hr, Option.some.injEq] at hm ⊢
    exact Bool.eq_false_iff.mpr hm
  obtain ⟨kind, i⟩ := r
  have := count_setIfInBounds_true hf
  cases kind <;> simp only [flags, mark, unmarked] at this ⊢ <;> omega

theorem isDone_of_unmarked_eq_zero (h : m.unmarked = 0) : m.isDone r := by
  by_contra hd
  have := unmarked_mark hd
  omega

end Marks

namespace Store

variable {s : Store} {roots work : List Ref} {marks : Marks} {r r' : Ref} {rounds : Nat}

-- What holds between the rounds of a trace: marks and worklist do not go beyond what is reachable,
-- and nothing reachable has been passed over.
structure Tracing (s : Store) (roots work : List Ref) (marks : Marks) : Prop where
  covers : marks.Covers s
  marked_reachable : ∀ r, marks.Marked r → s.Reachable roots r
  work_reachable : ∀ r ∈ work, s.Reachable roots r
  roots_seen : ∀ r ∈ roots, r ∈ work ∨ marks.isDone r
  refs_seen : ∀ r, marks.Marked r → ∀ r' ∈ s.refs r, r' ∈ work ∨ marks.isDone r'

namespace Tracing

theorem start : s.Tracing roots roots (.none s) where
  covers := Marks.none_covers
  marked_reachable _ h := absurd h Marks.not_marked_none
  work_reachable _ h := .root h
  roots_seen _ h := .inl h
  refs_seen _ h := absurd h Marks.not_marked_none

theorem skip (t : s.Tracing roots work marks) :
    s.Tracing roots (work.dropWhile marks.isDone) marks where
  covers := t.covers
  marked_reachable := t.marked_reachable
  work_reachable r h := t.work_reachable r <| List.dropWhile_sublist _ |>.mem h
  roots_seen r h := mem_dropWhile_or_isDone (t.roots_seen r h)
  refs_seen r h r' h' := mem_dropWhile_or_isDone (t.refs_seen r h r' h')
where
  mem_dropWhile_or_isDone {r : Ref} (h : r ∈ work ∨ marks.isDone r) :
      r ∈ work.dropWhile marks.isDone ∨ marks.isDone r := by
    by_cases hd : marks.isDone r
    case pos => exact .inr hd
    case neg =>
      have hw := h.resolve_right hd
      rw [← List.takeWhile_append_dropWhile (p := marks.isDone) (l := work),
        List.mem_append] at hw
      exact .inl <| hw.resolve_left (hd <| List.mem_takeWhile_imp ·)

-- One round: the first reference that is not done is marked, and what it refers to joins the work.
theorem round {rest : List Ref} (t : s.Tracing roots (r :: rest) marks) (hd : ¬marks.isDone r) :
    s.Tracing roots (s.refs r ++ rest) (marks.mark r) := by
  have hr := t.work_reachable r List.mem_cons_self
  have seen {r' : Ref} (h : r' ∈ r :: rest ∨ marks.isDone r') :
      r' ∈ s.refs r ++ rest ∨ (marks.mark r).isDone r' := by
    cases h
    case inl h =>
      cases List.mem_cons.mp h
      case inl h => exact .inr <| Marks.Marked.isDone <| Marks.marked_mark_iff hd |>.mpr <| .inl h
      case inr h => exact .inl <| List.mem_append_right _ h
    case inr h => exact .inr <| Marks.isDone_mark h
  constructor
  case covers => exact t.covers.mark
  case marked_reachable =>
    intro r' h
    cases Marks.marked_mark_iff hd |>.mp h
    case inl h => exact h ▸ hr
    case inr h => exact t.marked_reachable r' h
  case work_reachable =>
    intro r' h
    cases List.mem_append.mp h
    case inl h => exact hr.step h
    case inr h => exact t.work_reachable r' <| List.mem_cons_of_mem _ h
  case roots_seen => exact fun r' h => seen <| t.roots_seen r' h
  case refs_seen =>
    intro r₁ h r₂ h'
    cases Marks.marked_mark_iff hd |>.mp h
    case inl h => exact .inl <| List.mem_append_left _ (h ▸ h')
    case inr h => exact seen <| t.refs_seen r₁ h r₂ h'

-- A trace whose worklist leads to nothing new has found everything.
theorem complete (t : s.Tracing roots work marks) (hw : ∀ r ∈ work, marks.isDone r)
    (h : s.Reachable roots r) : marks.isDone r := by
  induction h
  case root r h => exact (t.roots_seen r h).elim (hw r) id
  case step r r' _ h hi =>
    cases Marks.isDone_iff.mp hi
    case inl hm => exact (t.refs_seen r hm r' h).elim (hw r') id
    case inr hr => simp [refs_eq_nil_of_extent (t.covers r.kind ▸ hr)] at h

end Tracing

theorem dropWhile_head_not_isDone {rest : List Ref}
    (h : work.dropWhile marks.isDone = r :: rest) : ¬marks.isDone r := by
  have := List.head?_dropWhile_not marks.isDone work
  simpa [h] using this

-- Every round marks a place, so rounds enough for the unmarked places leave no work.
theorem traceFrom_tracing (t : s.Tracing roots work marks) (hn : marks.unmarked ≤ rounds) :
    ∃ work', s.Tracing roots work' (s.traceFrom rounds work marks) ∧
      ∀ r ∈ work', (s.traceFrom rounds work marks).isDone r := by
  induction rounds generalizing work marks
  case zero =>
    exact ⟨work, t, fun _ _ => Marks.isDone_of_unmarked_eq_zero (Nat.le_zero.mp hn)⟩
  case succ rounds hi =>
    rw [traceFrom]
    split
    case h_1 h => exact ⟨[], h ▸ t.skip, by simp⟩
    case h_2 h =>
      have hd := dropWhile_head_not_isDone h
      have := Marks.unmarked_mark hd
      exact hi ((h ▸ t.skip).round hd) (by omega)

-- Further rounds change nothing.
theorem traceFrom_eq_of_le {rounds' : Nat} (hn : marks.unmarked ≤ rounds) (h : rounds ≤ rounds') :
    s.traceFrom rounds' work marks = s.traceFrom rounds work marks := by
  induction rounds generalizing work marks rounds'
  case zero =>
    cases rounds'
    case zero => rfl
    case succ =>
      have hw : work.dropWhile marks.isDone = [] :=
        List.dropWhile_eq_nil_iff.mpr fun _ _ =>
          Marks.isDone_of_unmarked_eq_zero (Nat.le_zero.mp hn)
      simp [traceFrom, hw]
  case succ rounds hi =>
    obtain ⟨rounds', rfl⟩ := Nat.exists_eq_add_of_lt h
    rw [traceFrom, traceFrom]
    split
    case h_1 => rfl
    case h_2 h =>
      have := Marks.unmarked_mark <| dropWhile_head_not_isDone h
      exact hi (by omega) (by omega)

theorem trace_covers : (s.trace roots).Covers s :=
  have ⟨_, t, _⟩ := traceFrom_tracing .start (Marks.unmarked_none s).le
  t.covers

theorem trace_marked_iff :
    (s.trace roots).Marked r ↔ s.Reachable roots r ∧ r.index < s.extent r.kind := by
  have ⟨_, t, hw⟩ := traceFrom_tracing (.start : s.Tracing roots ..) (Marks.unmarked_none s).le
  constructor
  case mp =>
    intro h
    refine ⟨t.marked_reachable r h, ?_⟩
    have := Array.getElem?_eq_some_iff.mp h |>.1
    exact t.covers r.kind ▸ this
  case mpr =>
    intro ⟨h, hr⟩
    refine Marks.isDone_iff.mp (t.complete hw h) |>.resolve_right ?_
    rw [t.covers r.kind]
    exact Nat.not_le.mpr hr

theorem trace_getD_iff (kind : Kind) {i : Nat} (h : i < s.extent kind) :
    ((s.trace roots).flags kind).getD i true = true ↔ s.Reachable roots ⟨kind, i⟩ := by
  have hd : ((s.trace roots).flags kind).getD i true = (s.trace roots).isDone ⟨kind, i⟩ := rfl
  rw [hd, Marks.isDone_iff, trace_marked_iff, trace_covers kind]
  simp only [h, and_true, or_iff_left_iff_imp]
  omega

end Store
end StepLisp
