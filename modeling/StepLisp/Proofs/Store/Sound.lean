import Mathlib.Data.List.Nodup
import StepLisp.Proofs.Store.Object
import StepLisp.Store.List

namespace StepLisp

namespace Slab

variable {α : Type} {s : Slab α} {a : α} {i j : Nat} {f : α → α}

theorem lt_size_of_isSome (h : (s.get? i).isSome) : i < s.entries.size := by
  by_contra hc
  simp [get?, Array.getElem?_eq_none (Nat.le_of_not_lt hc)] at h

structure Sound (s : Slab α) : Prop where
  nodup : s.free.Nodup
  vacant : ∀ i ∈ s.free, s.entries[i]? = some none

namespace Sound

theorem empty : ({} : Slab α).Sound where
  nodup := List.nodup_nil
  vacant := by simp

theorem get?_insert_fst (h : s.Sound) : s.get? (s.insert a).1 = none := by
  unfold insert
  split
  case h_1 i rest hf => simp [get?, h.vacant i (by simp [hf])]
  case h_2 => simp [get?]

theorem get?_insert (h : s.Sound) :
    (s.insert a).2.get? j = if j = (s.insert a).1 then some a else s.get? j := by
  unfold insert
  split
  case h_1 i rest hf =>
    have hi := Array.getElem?_eq_some_iff.mp (h.vacant i (by simp [hf])) |>.choose
    by_cases hj : j = i
    · simp [get?, hj, hi]
    · simp [get?, hj, Ne.symm hj]
  case h_2 =>
    by_cases hj : j = s.entries.size
    · simp [get?, hj]
    · simp [get?, hj, Array.getElem?_push]

theorem insert (h : s.Sound) : (s.insert a).2.Sound := by
  unfold Slab.insert
  split
  case h_1 i rest hf =>
    have hn := hf ▸ h.nodup
    constructor
    case nodup => exact hn.of_cons
    case vacant =>
      intro j hj
      have hij : i ≠ j := by
        rintro rfl
        exact (List.nodup_cons.mp hn).left hj
      simpa [hij] using h.vacant j (by simp [hf, hj])
  case h_2 => exact ⟨List.nodup_nil, by simp⟩

end Sound

theorem get?_modify : (s.modify i f).get? j = if j = i then (s.get? j).map f else s.get? j := by
  by_cases h : j = i
  · subst h
    simp only [get?, modify, Array.getElem?_modify, if_true]
    cases s.entries[j]? <;> rfl
  · simp [get?, modify, Array.getElem?_modify, h, Ne.symm h]

theorem Sound.modify (h : s.Sound) : (s.modify i f).Sound where
  nodup := h.nodup
  vacant := by
    intro j hj
    have hv := h.vacant j hj
    by_cases hij : i = j
    · subst hij
      simp [Slab.modify, Array.getElem?_modify, hv]
    · simpa [Slab.modify, Array.getElem?_modify, hij] using hv

end Slab

namespace Store

variable {s s' : Store} {r : Ref} {o : Object}

structure Sound (s : Store) : Prop where
  cells_nodup : s.freeCells.Nodup
  cells_lt : ∀ id ∈ s.freeCells, id.index < s.cells.size
  strings : s.strings.Sound
  frames : s.frames.Sound
  closures : s.closures.Sound
  continuations : s.continuations.Sound
  foreigns : s.foreigns.Sound

theorem Sound.new {capacity threshold : Nat} : (Store.new capacity threshold).Sound := by
  constructor <;> first | exact .empty | simp [Store.new]

-- The map from references to objects, kind by kind

theorem object?_pair {id : PairId} :
    s.object? id.ref = if id ∈ s.freeCells then none else s.cells[id.index]?.map .cell := by
  simp [object?, IsFree, content?, Handle.ref]

theorem object?_string {id : StringId} :
    s.object? id.ref = (s.strings.get? id.index).map .string := by
  simp [object?, IsFree, content?, Handle.ref]

theorem object?_frame {id : FrameId} : s.object? id.ref = (s.frames.get? id.index).map .frame := by
  simp [object?, IsFree, content?, Handle.ref]

theorem object?_closure {id : ClosureId} :
    s.object? id.ref = (s.closures.get? id.index).map .closure := by
  simp [object?, IsFree, content?, Handle.ref]

theorem object?_continuation {id : ContinuationId} :
    s.object? id.ref = (s.continuations.get? id.index).map .continuation := by
  simp [object?, IsFree, content?, Handle.ref]

theorem object?_foreign {id : ForeignId} :
    s.object? id.ref = (s.foreigns.get? id.index).map .foreign := by
  simp [object?, IsFree, content?, Handle.ref]

-- The store has another object under one reference, and is the same otherwise.
structure Puts (s : Store) (r : Ref) (o : Object) (s' : Store) : Prop where
  object?_eq (r' : Ref) : s'.object? r' = if r' = r then some o else s.object? r'
  sound : s'.Sound

theorem Puts.trans {r : Ref} {o o' : Object} {s₁ s₂ : Store} (h : s.Puts r o s₁)
    (h' : s₁.Puts r o' s₂) : s.Puts r o' s₂ := by
  refine ⟨fun r' => ?_, h'.sound⟩
  rw [h'.object?_eq, h.object?_eq]
  split <;> rfl

theorem alloc_puts {car cdr : Value} {id : PairId} (h : s.Sound)
    (ha : alloc car cdr s = .ok id s') :
    s.object? id.ref = none ∧ s.Puts id.ref (.cell ⟨car, cdr⟩) s' := by
  simp only [alloc] at ha
  split at ha
  case h_1 first rest hf =>
    cases ha
    obtain ⟨n⟩ := id
    have hn := List.nodup_cons.mp <| hf ▸ h.cells_nodup
    have hi := h.cells_lt ⟨n⟩ (by simp [hf])
    refine ⟨by simp [object?_pair, hf], ⟨?_, ?_⟩⟩
    · rintro ⟨kind, i⟩
      cases kind <;> simp [object?, IsFree, content?, Handle.ref, hf]
      by_cases he : i = n
      · simp [he, hn.left, hi]
      · simp [he, Ne.symm he]
    · exact { h with
        cells_nodup := hn.right
        cells_lt := fun id hid => by simpa using h.cells_lt id (by simp [hf, hid]) }
  case h_2 hf =>
    split at ha <;> cases ha
    refine ⟨by simp [object?_pair], ⟨?_, ?_⟩⟩
    · rintro ⟨kind, i⟩
      cases kind <;> simp [object?, IsFree, content?, Handle.ref, hf]
      by_cases he : i = s.cells.size
      · simp [he]
      · simp [he, Array.getElem?_push]
    · exact { h with
        cells_nodup := h.cells_nodup
        cells_lt := fun id hid => by simp [hf] at hid }

-- One slab has another entry, and everything else is the same.
theorem Puts.of_slab {α : Type} {slab slab' : Slab α} {kind : Kind} {wrap : α → Object} {i : Nat}
    {a : α} (hs : ∀ j, s.object? ⟨kind, j⟩ = (slab.get? j).map wrap)
    (hs' : ∀ j, s'.object? ⟨kind, j⟩ = (slab'.get? j).map wrap)
    (hg : ∀ j, slab'.get? j = if j = i then some a else slab.get? j) (h : s'.Sound)
    (ho : ∀ r, r.kind ≠ kind → s'.object? r = s.object? r) :
    s.Puts ⟨kind, i⟩ (wrap a) s' := by
  refine ⟨fun ⟨kind', j⟩ => ?_, h⟩
  by_cases hk : kind' = kind
  · subst hk
    simp only [hs, hs', hg, Ref.mk.injEq, true_and]
    split <;> rfl
  · simp [hk, ho ⟨kind', j⟩ hk]

theorem allocString_puts (text : String) (h : s.Sound) :
    ∃ id : StringId, ∃ s', allocString text s = .ok (.string id) s' ∧ s.object? id.ref = none ∧
      s.Puts id.ref (.string text) s' := by
  refine ⟨⟨(s.strings.insert text).1⟩, _, rfl, ?_, ?_⟩
  · rw [object?_string, h.strings.get?_insert_fst, Option.map_none]
  · exact .of_slab (fun _ => object?_string) (fun _ => object?_string)
      (fun _ => h.strings.get?_insert) { h with strings := h.strings.insert }
      fun ⟨kind, _⟩ hk => by cases kind <;> first | rfl | contradiction

theorem allocFrame_puts (parent : Option FrameId) (h : s.Sound) :
    ∃ id s', allocFrame parent s = .ok id s' ∧ s.object? id.ref = none ∧
      s.Puts id.ref (.frame { parent }) s' := by
  refine ⟨⟨(s.frames.insert { parent }).1⟩, _, rfl, ?_, ?_⟩
  · rw [object?_frame, h.frames.get?_insert_fst, Option.map_none]
  · exact .of_slab (fun _ => object?_frame) (fun _ => object?_frame)
      (fun _ => h.frames.get?_insert) { h with frames := h.frames.insert }
      fun ⟨kind, _⟩ hk => by cases kind <;> first | rfl | contradiction

theorem allocClosure_puts (c : Closure) (h : s.Sound) :
    ∃ id : ClosureId, ∃ s', allocClosure c s = .ok (.closure id) s' ∧ s.object? id.ref = none ∧
      s.Puts id.ref (.closure c) s' := by
  refine ⟨⟨(s.closures.insert c).1⟩, _, rfl, ?_, ?_⟩
  · rw [object?_closure, h.closures.get?_insert_fst, Option.map_none]
  · exact .of_slab (fun _ => object?_closure) (fun _ => object?_closure)
      (fun _ => h.closures.get?_insert) { h with closures := h.closures.insert }
      fun ⟨kind, _⟩ hk => by cases kind <;> first | rfl | contradiction

theorem allocContinuation_puts (k : Continuation) (h : s.Sound) :
    ∃ id : ContinuationId, ∃ s', allocContinuation k s = .ok (.continuation id) s' ∧
      s.object? id.ref = none ∧ s.Puts id.ref (.continuation k) s' := by
  refine ⟨⟨(s.continuations.insert k).1⟩, _, rfl, ?_, ?_⟩
  · rw [object?_continuation, h.continuations.get?_insert_fst, Option.map_none]
  · exact .of_slab (fun _ => object?_continuation) (fun _ => object?_continuation)
      (fun _ => h.continuations.get?_insert) { h with continuations := h.continuations.insert }
      fun ⟨kind, _⟩ hk => by cases kind <;> first | rfl | contradiction

theorem allocForeign_puts (f : Foreign) (h : s.Sound) :
    ∃ id : ForeignId, ∃ s', allocForeign f s = .ok (.foreign id) s' ∧ s.object? id.ref = none ∧
      s.Puts id.ref (.foreign f) s' := by
  refine ⟨⟨(s.foreigns.insert f).1⟩, _, rfl, ?_, ?_⟩
  · rw [object?_foreign, h.foreigns.get?_insert_fst, Option.map_none]
  · exact .of_slab (fun _ => object?_foreign) (fun _ => object?_foreign)
      (fun _ => h.foreigns.get?_insert) { h with foreigns := h.foreigns.insert }
      fun ⟨kind, _⟩ hk => by cases kind <;> first | rfl | contradiction

-- Reads

theorem cells_of_object? {id : PairId} {c : Cell} (h : s.object? id.ref = some (.cell c)) :
    id ∉ s.freeCells ∧ s.cells[id.index]? = some c := by
  rw [object?_pair] at h
  split at h
  case isTrue => cases h
  case isFalse hf => exact ⟨hf, by simpa using h⟩

theorem car_of_object? {id : PairId} {c : Cell} (h : s.object? id.ref = some (.cell c)) :
    s.car id = c.car := by
  simp [car, (cells_of_object? h).right]

theorem cdr_of_object? {id : PairId} {c : Cell} (h : s.object? id.ref = some (.cell c)) :
    s.cdr id = c.cdr := by
  simp [cdr, (cells_of_object? h).right]

theorem uncons?_of_object? {id : PairId} {c : Cell} (h : s.object? id.ref = some (.cell c)) :
    s.uncons? (.pair id) = some (c.car, c.cdr) := by
  rw [uncons?, car_of_object? h, cdr_of_object? h]

theorem present_of_map_eq {α : Type} {kind : Kind} {i : Nat} {found : Option α} {a : α}
    {wrap : α → Object} (hw : wrap.Injective) (h : found.map wrap = some (wrap a)) :
    present kind i found = .ok a := by
  have hf : found = some a := Option.map_injective hw h
  rw [hf]
  rfl

theorem string_of_object? {id : StringId} {text : String}
    (h : s.object? id.ref = some (.string text)) : s.string id = .ok text := by
  exact present_of_map_eq (fun _ _ => by rintro ⟨⟩; rfl) (object?_string ▸ h)

theorem frame_of_object? {id : FrameId} {f : Frame} (h : s.object? id.ref = some (.frame f)) :
    s.frame id = .ok f := by
  exact present_of_map_eq (fun _ _ => by rintro ⟨⟩; rfl) (object?_frame ▸ h)

theorem closure_of_object? {id : ClosureId} {c : Closure}
    (h : s.object? id.ref = some (.closure c)) : s.closure id = .ok c := by
  exact present_of_map_eq (fun _ _ => by rintro ⟨⟩; rfl) (object?_closure ▸ h)

theorem continuation_of_object? {id : ContinuationId} {k : Continuation}
    (h : s.object? id.ref = some (.continuation k)) : s.continuation id = .ok k := by
  exact present_of_map_eq (fun _ _ => by rintro ⟨⟩; rfl) (object?_continuation ▸ h)

theorem foreign_of_object? {id : ForeignId} {f : Foreign}
    (h : s.object? id.ref = some (.foreign f)) : s.foreign id = .ok f := by
  exact present_of_map_eq (fun _ _ => by rintro ⟨⟩; rfl) (object?_foreign ▸ h)

-- Assignments

theorem setCar_puts {id : PairId} {c : Cell} {v : Value} (h : s.Sound)
    (hc : s.object? id.ref = some (.cell c)) :
    s.Puts id.ref (.cell { c with car := v }) (s.setCar id v) := by
  obtain ⟨n⟩ := id
  have ⟨hf, hn⟩ := cells_of_object? hc
  refine ⟨?_, { h with cells_lt := by simpa [setCar] using h.cells_lt }⟩
  rintro ⟨kind, i⟩
  cases kind <;> simp [object?, IsFree, content?, Handle.ref, setCar, Array.getElem?_modify]
  by_cases he : i = n
  · subst he
    simp [hf, hn]
  · simp [he, Ne.symm he]

theorem setCdr_puts {id : PairId} {c : Cell} {v : Value} (h : s.Sound)
    (hc : s.object? id.ref = some (.cell c)) :
    s.Puts id.ref (.cell { c with cdr := v }) (s.setCdr id v) := by
  obtain ⟨n⟩ := id
  have ⟨hf, hn⟩ := cells_of_object? hc
  refine ⟨?_, { h with cells_lt := by simpa [setCdr] using h.cells_lt }⟩
  rintro ⟨kind, i⟩
  cases kind <;> simp [object?, IsFree, content?, Handle.ref, setCdr, Array.getElem?_modify]
  by_cases he : i = n
  · subst he
    simp [hf, hn]
  · simp [he, Ne.symm he]

theorem define_puts {env : FrameId} {f : Frame} {x : Symbol} {v : Value} (h : s.Sound)
    (hf : s.object? env.ref = some (.frame f)) :
    ∃ s', define env x v s = .ok () s' ∧ s.Puts env.ref (.frame (f.define x v)) s' := by
  have hg : s.frames.get? env.index = some f := by simpa [object?_frame] using hf
  refine ⟨{ s with frames := s.frames.modify env.index (·.define x v) }, ?_, ?_⟩
  · simp [define, frame_of_object? hf]
  · refine .of_slab (fun _ => object?_frame) (fun _ => object?_frame) (fun j => ?_)
      { h with frames := h.frames.modify }
      fun ⟨kind, _⟩ hk => by cases kind <;> first | rfl | contradiction
    rw [Slab.get?_modify]
    split <;> simp_all

theorem markClosure_puts {id : ClosureId} {c : Closure} (h : s.Sound)
    (hc : s.object? id.ref = some (.closure c)) :
    ∃ s', markClosure id s = .ok () s' ∧
      s.Puts id.ref (.closure { c with special := true }) s' := by
  have hg : s.closures.get? id.index = some c := by simpa [object?_closure] using hc
  refine ⟨{ s with closures := s.closures.modify id.index ({ · with special := true }) }, ?_, ?_⟩
  · simp [markClosure, closure_of_object? hc]
  · refine .of_slab (fun _ => object?_closure) (fun _ => object?_closure) (fun j => ?_)
      { h with closures := h.closures.modify }
      fun ⟨kind, _⟩ hk => by cases kind <;> first | rfl | contradiction
    rw [Slab.get?_modify]
    split <;> simp_all

theorem markContinuation_puts {id : ContinuationId} {k : Continuation} (h : s.Sound)
    (hk : s.object? id.ref = some (.continuation k)) :
    ∃ s', markContinuation id s = .ok () s' ∧
      s.Puts id.ref (.continuation { k with special := true }) s' := by
  have hg : s.continuations.get? id.index = some k := by simpa [object?_continuation] using hk
  refine ⟨{ s with
    continuations := s.continuations.modify id.index ({ · with special := true }) }, ?_, ?_⟩
  · simp [markContinuation, continuation_of_object? hk]
  · refine .of_slab (fun _ => object?_continuation) (fun _ => object?_continuation) (fun j => ?_)
      { h with continuations := h.continuations.modify }
      fun ⟨kind, _⟩ hk => by cases kind <;> first | rfl | contradiction
    rw [Slab.get?_modify]
    split <;> simp_all

end Store
end StepLisp
