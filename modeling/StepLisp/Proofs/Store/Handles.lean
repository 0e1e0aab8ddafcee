import StepLisp.Proofs.Renaming.Collect
import StepLisp.Proofs.Store.Conduct

namespace StepLisp

-- The places below `n` that are not listed are counted by what the list leaves over.
theorem ncard_unlisted {free : List Nat} {n : Nat} (hn : free.Nodup) (hl : ∀ i ∈ free, i < n) :
    {i | i < n ∧ i ∉ free}.ncard + free.length = n := by
  have hf : {i | i < n ∧ i ∈ free}.ncard = free.length :=
    ncard_eq_length hn fun i => ⟨fun h => ⟨hl i h, h⟩, And.right⟩
  have := Store.ncard_pairs (p := (· ∈ free)) (n := n)
  omega

namespace Slab

variable {α : Type} {s : Slab α} {a : α} {i : Nat} {f : α → α} {keep : Nat → Bool}

-- The free list holds the numbers of the vacant entries, once each.
structure Exact (s : Slab α) : Prop where
  nodup : s.free.Nodup
  mem_free_iff (i : Nat) : i ∈ s.free ↔ s.entries[i]? = some none

namespace Exact

theorem empty : ({} : Slab α).Exact where
  nodup := List.nodup_nil
  mem_free_iff := by simp

theorem sound (h : s.Exact) : s.Sound where
  nodup := h.nodup
  vacant := fun i => (h.mem_free_iff i).mp

theorem of_sound (h : s.Sound) (hl : ∀ i, s.entries[i]? = some none → i ∈ s.free) : s.Exact where
  nodup := h.nodup
  mem_free_iff := fun i => ⟨h.vacant i, hl i⟩

theorem lt_size (h : s.Exact) : ∀ i ∈ s.free, i < s.entries.size := fun i hi =>
  (Array.getElem?_eq_some_iff.mp <| (h.mem_free_iff i).mp hi).choose

theorem insert (h : s.Exact) : (s.insert a).2.Exact := by
  refine of_sound h.sound.insert fun j hj => ?_
  unfold Slab.insert at hj ⊢
  split at hj
  case h_1 i rest hf =>
    have hi := h.lt_size i (by simp [hf])
    have hij : i ≠ j := by
      rintro rfl
      simp [hi] at hj
    rw [Array.getElem?_setIfInBounds_ne hij] at hj
    have hm := (h.mem_free_iff j).mpr hj
    simp_all [Ne.symm hij]
  case h_2 hf =>
    rw [Array.getElem?_push] at hj
    split at hj
    case isTrue => cases hj
    case isFalse => exact absurd ((h.mem_free_iff j).mpr hj) (by simp [hf])

theorem modify (h : s.Exact) : (s.modify i f).Exact := by
  refine of_sound h.sound.modify fun j hj => (h.mem_free_iff j).mpr ?_
  simp only [Slab.modify, Array.getElem?_modify] at hj
  split at hj
  case isTrue => simpa using hj
  case isFalse => exact hj

theorem sweep (h : s.Exact) : (s.sweep keep).Exact := by
  refine of_sound h.sound.sweep fun j hj => ?_
  simp only [Slab.sweep, Array.getElem?_mapIdx, Option.map_eq_some_iff] at hj
  obtain ⟨entry, he, hk⟩ := hj
  refine List.mem_append.mpr ?_
  -- An entry is vacant after the sweep because it was so before or because it was dropped.
  cases entry
  case none => exact .inr <| (h.mem_free_iff j).mpr he
  case some a =>
    have hk : keep j = false := by
      by_contra hc
      simp [hc] at hk
    exact .inl <| List.mem_reverse.mpr <| mem_dropped_iff.mpr ⟨by simp [get?, he], hk⟩

end Exact

theorem insert_of_free_nil (h : s.free = []) :
    (s.insert a).1 = s.entries.size ∧ (s.insert a).2.entries.size = s.entries.size + 1 := by
  simp [insert, h]

theorem insert_of_free_ne_nil (h : s.free ≠ []) :
    (s.insert a).1 ∈ s.free ∧ (s.insert a).2.entries.size = s.entries.size := by
  obtain ⟨i, rest, hf⟩ := List.exists_cons_of_ne_nil h
  simp [insert, hf]

end Slab

namespace Store

variable {s s' : Store} {r : Ref} {o : Object} {capacity : Nat}

-- The free lists and counts of a store with room for `capacity` cells are in order.
structure Orderly (capacity : Nat) (s : Store) : Prop where
  cells_nodup : s.freeCells.Nodup
  cells_lt : ∀ id ∈ s.freeCells, id.index < s.totalCells
  strings : s.strings.Exact
  frames : s.frames.Exact
  closures : s.closures.Exact
  continuations : s.continuations.Exact
  foreigns : s.foreigns.Exact
  capacity_eq : s.capacity = capacity
  totalCells_le : s.totalCells ≤ capacity

namespace Orderly

theorem new {threshold : Nat} : (Store.new capacity threshold).Orderly capacity := by
  constructor <;> first | exact .empty | simp [Store.new, totalCells]

theorem sound (h : s.Orderly capacity) : s.Sound where
  cells_nodup := h.cells_nodup
  cells_lt := h.cells_lt
  strings := h.strings.sound
  frames := h.frames.sound
  closures := h.closures.sound
  continuations := h.continuations.sound
  foreigns := h.foreigns.sound

theorem liveCells_add (h : s.Orderly capacity) :
    {i | i < s.totalCells ∧ (⟨i⟩ : PairId) ∉ s.freeCells}.ncard + s.freeCells.length =
      s.totalCells := by
  have hn : (s.freeCells.map Handle.index).Nodup :=
    h.cells_nodup.map fun ⟨_⟩ ⟨_⟩ h => by simpa using h
  have hm (i : Nat) : i ∈ s.freeCells.map Handle.index ↔ (⟨i⟩ : PairId) ∈ s.freeCells := by
    rw [List.mem_map]
    exact ⟨fun ⟨⟨_⟩, h, hi⟩ => hi ▸ h, fun h => ⟨_, h, rfl⟩⟩
  have hc := ncard_unlisted hn (n := s.totalCells) fun i hi => h.cells_lt _ ((hm i).mp hi)
  simpa only [hm, List.length_map] using hc

theorem liveFrames_add (h : s.Orderly capacity) :
    {i | i < s.frames.entries.size ∧ i ∉ s.frames.free}.ncard + s.frames.free.length =
      s.frames.entries.size :=
  ncard_unlisted h.frames.nodup h.frames.lt_size

end Orderly

-- The numbers of the places of a kind that can be given out again.
def freeList (s : Store) : Kind → List Nat
  | .pair => s.freeCells.map Handle.index
  | .string => s.strings.free
  | .frame => s.frames.free
  | .closure => s.closures.free
  | .continuation => s.continuations.free
  | .foreign => s.foreigns.free

-- A new object is put under a vacant reference, and nothing else changes: at a listed place if
-- there is one, and at one more place otherwise.
structure Gives (s : Store) (o : Object) (r : Ref) (s' : Store) : Prop where
  kind_eq : r.kind = o.kind
  vacant : s.object? r = none
  object?_eq (r' : Ref) : s'.object? r' = if r' = r then some o else s.object? r'
  place_of_listed : s.freeList r.kind ≠ [] →
    r.index ∈ s.freeList r.kind ∧ s'.extent r.kind = s.extent r.kind
  place_of_unlisted : s.freeList r.kind = [] →
    r.index = s.extent r.kind ∧ s'.extent r.kind = s.extent r.kind + 1
  extent_eq : ∀ kind ≠ r.kind, s'.extent kind = s.extent kind

-- What can be asked of a store. An update changes an entry in place, if there is such an entry:
-- definitions and the marking of closures and continuations are updates.
inductive Request
  | pair (car cdr : Value)
  | string (text : String)
  | frame (parent : Option FrameId)
  | closure (c : Closure)
  | continuation (k : Continuation)
  | foreign (f : Foreign)
  | setCar (id : PairId) (v : Value)
  | setCdr (id : PairId) (v : Value)
  | updateFrame (id : FrameId) (change : Frame → Frame)
  | updateClosure (id : ClosureId) (change : Closure → Closure)
  | updateContinuation (id : ContinuationId) (change : Continuation → Continuation)
  | collect (values : List Value) (envs : List FrameId)

-- The reference that an action gives out, if any, and the store that it leaves.
def given {α : Type} (ref? : α → Option Ref) : EStateM.Result Fault Store α → Option Ref × Store
  | .ok a s => (ref? a, s)
  | .error _ s => (none, s)

namespace Request

def perform (s : Store) : Request → Option Ref × Store
  | pair car cdr => given (some ·.ref) (alloc car cdr s)
  | string text => given (·.refs.head?) (allocString text s)
  | frame parent => given (some ·.ref) (allocFrame parent s)
  | closure c => given (·.refs.head?) (allocClosure c s)
  | continuation k => given (·.refs.head?) (allocContinuation k s)
  | foreign f => given (·.refs.head?) (allocForeign f s)
  | setCar id v => (none, s.setCar id v)
  | setCdr id v => (none, s.setCdr id v)
  | updateFrame id change => (none, { s with frames := s.frames.modify id.index change })
  | updateClosure id change => (none, { s with closures := s.closures.modify id.index change })
  | updateContinuation id change =>
    (none, { s with continuations := s.continuations.modify id.index change })
  | collect values envs => (none, (s.collect (values.flatMap Value.refs ++ envs.map Handle.ref)).2)

-- The object that a request asks a place for.
def object? : Request → Option Object
  | pair car cdr => some (.cell ⟨car, cdr⟩)
  | string text => some (.string text)
  | frame parent => some (.frame { parent })
  | closure c => some (.closure c)
  | continuation k => some (.continuation k)
  | foreign f => some (.foreign f)
  | _ => none

-- Only a collection gives objects up, namely those that its roots do not reach.
def Keeps (s : Store) : Request → Ref → Prop
  | collect values envs => s.Reachable (values.flatMap Value.refs ++ envs.map Handle.ref)
  | _ => fun _ => True

end Request

-- Definitions and marks are updates

theorem define_eq_perform {env : FrameId} {f : Frame} {x : Symbol} {v : Value}
    (h : s.frame env = .ok f) :
    define env x v s = .ok () (Request.perform s (.updateFrame env (·.define x v))).2 := by
  simp only [define, h, Request.perform]

theorem markClosure_eq_perform {id : ClosureId} {c : Closure} (h : s.closure id = .ok c) :
    markClosure id s =
      .ok () (Request.perform s (.updateClosure id ({ · with special := true }))).2 := by
  simp only [markClosure, h, Request.perform]

theorem markContinuation_eq_perform {id : ContinuationId} {k : Continuation}
    (h : s.continuation id = .ok k) :
    markContinuation id s =
      .ok () (Request.perform s (.updateContinuation id ({ · with special := true }))).2 := by
  simp only [markContinuation, h, Request.perform]

-- What is given out

theorem alloc_gives {car cdr : Value} {id : PairId} (h : s.Sound)
    (ha : alloc car cdr s = .ok id s') : s.Gives (.cell ⟨car, cdr⟩) id.ref s' := by
  have ⟨hv, hp⟩ := alloc_puts h ha
  simp only [alloc] at ha
  split at ha
  case h_1 id rest hf =>
    cases ha
    refine ⟨rfl, hv, hp.object?_eq, ?_, ?_, ?_⟩
    · simp [freeList, extent, Handle.ref, hf]
    · simp [freeList, Handle.ref, hf]
    · intro kind hk
      cases kind <;> first | rfl | contradiction
  case h_2 hf =>
    split at ha <;> cases ha
    refine ⟨rfl, hv, hp.object?_eq, ?_, ?_, ?_⟩
    · simp [freeList, Handle.ref, hf]
    · simp [extent, Handle.ref]
    · intro kind hk
      cases kind <;> first | rfl | contradiction

-- An insertion into the slab of one kind.
theorem Gives.of_insert {α : Type} {slab : Slab α} {kind : Kind} {a : α}
    (hk : o.kind = kind) (hv : s.object? ⟨kind, (slab.insert a).1⟩ = none)
    (hp : s.Puts ⟨kind, (slab.insert a).1⟩ o s') (hf : s.freeList kind = slab.free)
    (he : s.extent kind = slab.entries.size) (he' : s'.extent kind = (slab.insert a).2.entries.size)
    (ho : ∀ kind' ≠ kind, s'.extent kind' = s.extent kind') :
    s.Gives o ⟨kind, (slab.insert a).1⟩ s' where
  kind_eq := hk.symm
  vacant := hv
  object?_eq := hp.object?_eq
  place_of_listed := by simpa only [hf, he, he'] using Slab.insert_of_free_ne_nil
  place_of_unlisted := by simpa only [hf, he, he'] using Slab.insert_of_free_nil
  extent_eq := ho

theorem Gives.live {r' : Ref} (h : s.Gives o r s') (hl : s.Live r') : s'.Live r' := by
  rw [Live, h.object?_eq]
  split
  case isTrue => rfl
  case isFalse => exact hl

theorem Live.of_content (h : s.Live r) (hf : s'.freeCells = s.freeCells)
    (hc : (s.content? r).isSome → (s'.content? r).isSome) : s'.Live r := by
  have hn : ¬s'.IsFree r := by
    rw [IsFree, hf]
    exact h.not_isFree
  rw [Live, object?_eq_content hn]
  exact hc <| object?_eq_content h.not_isFree ▸ h

namespace Request

-- The places of the slabs never run out.
theorem exists_given (h : s.Sound) {q : Request} (hq : q.object? = some o) (hk : o.kind ≠ .pair) :
    ∃ r s', q.perform s = (some r, s') ∧ s.Gives o r s' := by
  cases q <;> cases hq
  case pair => contradiction
  case string text =>
    have ⟨_, _, he, hv, hp⟩ := allocString_puts text h
    cases he
    refine ⟨_, _, rfl, .of_insert rfl hv hp rfl rfl rfl fun kind hk => ?_⟩
    cases kind <;> first | rfl | contradiction
  case frame parent =>
    have ⟨_, _, he, hv, hp⟩ := allocFrame_puts parent h
    cases he
    refine ⟨_, _, rfl, .of_insert rfl hv hp rfl rfl rfl fun kind hk => ?_⟩
    cases kind <;> first | rfl | contradiction
  case closure c =>
    have ⟨_, _, he, hv, hp⟩ := allocClosure_puts c h
    cases he
    refine ⟨_, _, rfl, .of_insert rfl hv hp rfl rfl rfl fun kind hk => ?_⟩
    cases kind <;> first | rfl | contradiction
  case continuation k =>
    have ⟨_, _, he, hv, hp⟩ := allocContinuation_puts k h
    cases he
    refine ⟨_, _, rfl, .of_insert rfl hv hp rfl rfl rfl fun kind hk => ?_⟩
    cases kind <;> first | rfl | contradiction
  case foreign f =>
    have ⟨_, _, he, hv, hp⟩ := allocForeign_puts f h
    cases he
    refine ⟨_, _, rfl, .of_insert rfl hv hp rfl rfl rfl fun kind hk => ?_⟩
    cases kind <;> first | rfl | contradiction

theorem perform_of_not_hasRoom (h : ¬s.HasRoom) {q : Request} (hq : q.object? = some o)
    (hk : o.kind = .pair) : q.perform s = (none, { s with allocations := s.allocations + 1 }) := by
  cases q <;> cases hq
  case pair => simp only [perform, alloc_of_not_hasRoom h, given]
  all_goals cases hk

theorem given_or_refused (h : s.Sound) {q : Request} (hq : q.object? = some o) :
    (∃ r s', q.perform s = (some r, s') ∧ s.Gives o r s') ∨
      o.kind = .pair ∧ ¬s.HasRoom ∧
        q.perform s = (none, { s with allocations := s.allocations + 1 }) := by
  by_cases hk : o.kind = .pair
  case neg => exact .inl <| exists_given h hq hk
  case pos =>
    by_cases hr : s.HasRoom
    case neg => exact .inr ⟨hk, hr, perform_of_not_hasRoom hr hq hk⟩
    case pos =>
      cases q <;> cases hq
      case pair car cdr =>
        have ⟨id, s', ha⟩ := alloc_of_hasRoom (a := car) (b := cdr) hr
        exact .inl ⟨id.ref, s', by rw [perform, ha]; rfl, alloc_gives h ha⟩
      all_goals cases hk

-- What a request keeps

theorem orderly_alloc {car cdr : Value} (h : s.Orderly capacity) :
    (perform s (.pair car cdr)).2.Orderly capacity := by
  simp only [perform, alloc]
  split
  case h_1 id rest hf =>
    have hn := (List.nodup_cons.mp <| hf ▸ h.cells_nodup).right
    exact { h with
      cells_nodup := hn
      cells_lt := fun id hid => by
        simpa [given, totalCells] using h.cells_lt id (hf ▸ List.mem_cons_of_mem _ hid)
      totalCells_le := by simpa [given, totalCells] using h.totalCells_le }
  case h_2 hf =>
    split
    case isTrue hlt =>
      exact { h with
        cells_lt := fun id hid => by simp [given, hf] at hid
        totalCells_le := by simpa [given, totalCells] using h.capacity_eq ▸ hlt }
    case isFalse => exact { h with }

theorem orderly_perform (h : s.Orderly capacity) (q : Request) :
    (q.perform s).2.Orderly capacity := by
  cases q
  case pair car cdr => exact orderly_alloc h
  case string => exact { h with strings := h.strings.insert }
  case frame => exact { h with frames := h.frames.insert }
  case closure => exact { h with closures := h.closures.insert }
  case continuation => exact { h with continuations := h.continuations.insert }
  case foreign => exact { h with foreigns := h.foreigns.insert }
  case setCar =>
    exact { h with
      cells_lt := by simpa [perform, Store.setCar, totalCells] using h.cells_lt
      totalCells_le := by simpa [perform, Store.setCar, totalCells] using h.totalCells_le }
  case setCdr =>
    exact { h with
      cells_lt := by simpa [perform, Store.setCdr, totalCells] using h.cells_lt
      totalCells_le := by simpa [perform, Store.setCdr, totalCells] using h.totalCells_le }
  case updateFrame => exact { h with frames := h.frames.modify }
  case updateClosure => exact { h with closures := h.closures.modify }
  case updateContinuation => exact { h with continuations := h.continuations.modify }
  case collect values envs =>
    have hs : (perform s (.collect values envs)).2.Sound := h.sound.collect
    have ht : (perform s (.collect values envs)).2.totalCells = s.totalCells :=
      (collect_exact s values envs).total_eq
    exact {
      cells_nodup := hs.cells_nodup
      cells_lt := hs.cells_lt
      strings := h.strings.sweep
      frames := h.frames.sweep
      closures := h.closures.sweep
      continuations := h.continuations.sweep
      foreigns := h.foreigns.sweep
      capacity_eq := h.capacity_eq
      totalCells_le := ht ▸ h.totalCells_le }

-- What a request keeps stays an object.
theorem live_perform (h : s.Sound) {q : Request} (hl : s.Live r) (hk : q.Keeps s r) :
    (q.perform s).2.Live r := by
  obtain ⟨kind, i⟩ := r
  cases hq : q.object?
  case some o =>
    obtain ⟨_, _, hp, hg⟩ | ⟨_, _, hp⟩ := given_or_refused h hq <;> rw [hp]
    · exact hg.live hl
    · exact hl
  case none =>
    cases q <;> cases hq
    case setCar =>
      refine Live.of_content hl rfl ?_
      cases kind <;> simp [perform, Store.setCar, content?]
    case setCdr =>
      refine Live.of_content hl rfl ?_
      cases kind <;> simp [perform, Store.setCdr, content?]
    case updateFrame =>
      refine Live.of_content hl rfl ?_
      cases kind <;> simp only [perform, content?, Slab.get?_modify, Option.isSome_map, imp_self]
      split <;> simp
    case updateClosure =>
      refine Live.of_content hl rfl ?_
      cases kind <;> simp only [perform, content?, Slab.get?_modify, Option.isSome_map, imp_self]
      split <;> simp
    case updateContinuation =>
      refine Live.of_content hl rfl ?_
      cases kind <;> simp only [perform, content?, Slab.get?_modify, Option.isSome_map, imp_self]
      split <;> simp
    case collect values envs =>
      obtain ⟨o, ho⟩ := live_iff_exists.mp hl
      exact live_iff_exists.mpr ⟨o, (Retains.collect h).object?_eq hk ho⟩

theorem live_of_given (h : s.Sound) {q : Request} (hg : (q.perform s).1 = some r) :
    (q.perform s).2.Live r := by
  cases hq : q.object?
  case some o =>
    obtain ⟨_, _, hp, hn⟩ | ⟨_, _, hp⟩ := given_or_refused h hq <;> rw [hp] at hg ⊢ <;> cases hg
    simp [Live, hn.object?_eq]
  case none => cases q <;> cases hq <;> cases hg

end Request

-- A store, and the references that it gave out for objects that it has not given up since.
structure Trail where
  store : Store
  held : Set Ref

namespace Trail

variable {t : Trail}

def after (t : Trail) (q : Request) : Trail where
  store := (q.perform t.store).2
  held := {r | (r ∈ t.held ∧ q.Keeps t.store r) ∨ (q.perform t.store).1 = some r}

-- Every request is answered as it should be, given which references are held.
structure Faithful (capacity : Nat) (t : Trail) : Prop where
  orderly : t.store.Orderly capacity
  held_live : ∀ r ∈ t.held, t.store.Live r
  freeCells_le : t.store.freeCells.length ≤ t.store.totalCells
  liveCells_eq : t.store.liveCells =
    {i | i < t.store.totalCells ∧ (⟨i⟩ : PairId) ∉ t.store.freeCells}.ncard
  freeFrames_le : t.store.frames.free.length ≤ t.store.frames.entries.size
  liveFrames_eq : t.store.liveFrames =
    {i | i < t.store.frames.entries.size ∧ i ∉ t.store.frames.free}.ncard
  given_fresh (q : Request) (o : Object) (r : Ref) (s' : Store) :
    q.object? = some o → q.perform t.store = (some r, s') → r ∉ t.held ∧ t.store.Gives o r s'
  refused_iff (q : Request) (o : Object) : q.object? = some o →
    ((q.perform t.store).1 = none ↔
      o.kind = .pair ∧ t.store.freeCells = [] ∧ t.store.totalCells = capacity)
  refused_unchanged (q : Request) (o : Object) (s' : Store) : q.object? = some o →
    q.perform t.store = (none, s') →
    s' = { t.store with allocations := t.store.allocations + 1 }

theorem not_hasRoom_iff (h : s.Orderly capacity) :
    ¬s.HasRoom ↔ s.freeCells = [] ∧ s.totalCells = capacity := by
  have := h.totalCells_le
  rw [HasRoom, not_or, not_not, h.capacity_eq]
  exact and_congr_right fun _ => by omega

theorem Faithful.of_orderly (h : t.store.Orderly capacity) (hl : ∀ r ∈ t.held, t.store.Live r) :
    t.Faithful capacity := by
  have hc := h.liveCells_add
  have hf := h.liveFrames_add
  constructor
  case orderly => exact h
  case held_live => exact hl
  case freeCells_le => omega
  case liveCells_eq => exact Nat.sub_eq_of_eq_add hc.symm
  case freeFrames_le => omega
  case liveFrames_eq => exact Nat.sub_eq_of_eq_add hf.symm
  case given_fresh =>
    intro q o r s' hq hp
    have hg : t.store.Gives o r s' := by
      obtain ⟨_, _, he, hg⟩ | ⟨_, _, he⟩ := Request.given_or_refused h.sound hq <;>
        cases he.symm.trans hp
      exact hg
    refine ⟨fun hr => ?_, hg⟩
    have hv := hl r hr
    rw [Live, hg.vacant] at hv
    cases hv
  case refused_iff =>
    intro q o hq
    rw [← not_hasRoom_iff h]
    constructor
    · intro hp
      obtain ⟨_, _, he, _⟩ | ⟨hk, hr, _⟩ := Request.given_or_refused h.sound hq
      · rw [he] at hp
        cases hp
      · exact ⟨hk, hr⟩
    · rintro ⟨hk, hr⟩
      rw [Request.perform_of_not_hasRoom hr hq hk]
  case refused_unchanged =>
    intro q o s' hq hp
    obtain ⟨_, _, he, _⟩ | ⟨_, _, he⟩ := Request.given_or_refused h.sound hq <;>
      cases he.symm.trans hp
    rfl

-- The induction is on the requests: each keeps the store in order and what is held alive.
theorem orderly_live_foldl (requests : List Request) (h : t.store.Orderly capacity)
    (hl : ∀ r ∈ t.held, t.store.Live r) :
    (requests.foldl after t).store.Orderly capacity ∧
      ∀ r ∈ (requests.foldl after t).held, (requests.foldl after t).store.Live r := by
  induction requests generalizing t
  case nil => exact ⟨h, hl⟩
  case cons q requests hi =>
    refine hi (t := t.after q) (Request.orderly_perform h q) fun r hr => ?_
    rcases hr with ⟨hr, hk⟩ | hg
    · exact Request.live_perform h.sound (hl r hr) hk
    · exact Request.live_of_given h.sound hg

theorem faithful_requests (capacity threshold : Nat) (requests : List Request) :
    (requests.foldl after ⟨.new capacity threshold, ∅⟩).Faithful capacity := by
  have ⟨h, hl⟩ := orderly_live_foldl (t := ⟨.new capacity threshold, ∅⟩) requests .new (by simp)
  exact .of_orderly h hl

end Trail
end Store
end StepLisp
