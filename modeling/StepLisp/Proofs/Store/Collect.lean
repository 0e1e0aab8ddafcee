import Mathlib.Data.Set.Card
import StepLisp.Proofs.Store.Sound
import StepLisp.Proofs.Store.Trace
import StepLisp.Store.Collect

namespace StepLisp

-- A set is as large as a list of its members without repetition is long.
theorem ncard_eq_length {α : Type} {p : α → Prop} {members : List α} (hn : members.Nodup)
    (h : ∀ a, a ∈ members ↔ p a) : {a | p a}.ncard = members.length := by
  classical
  have hs : {a | p a} = (members.toFinset : Set α) := by ext a; simp [h]
  rw [hs, Set.ncard_coe_finset, List.toFinset_card_of_nodup hn]

namespace Slab

variable {α : Type} {s : Slab α} {keep : Nat → Bool} {i : Nat}

theorem get?_sweep : (s.sweep keep).get? i = if keep i then s.get? i else none := by
  simp only [get?, sweep, Array.getElem?_mapIdx]
  cases s.entries[i]? <;> cases keep i <;> rfl

theorem mem_dropped_iff : i ∈ s.dropped keep ↔ (s.get? i).isSome ∧ keep i = false := by
  simp only [dropped, List.mem_filter, List.mem_range, Bool.and_eq_true, Bool.not_eq_true',
    and_iff_right_iff_imp]
  exact fun h => lt_size_of_isSome h.left

theorem dropped_nodup : (s.dropped keep).Nodup :=
  List.nodup_range.filter _

end Slab

namespace Store

variable {s : Store} {roots : List Ref} {marks : Marks} {r : Ref} {i : Nat}

theorem unmarkedCells_eq : s.unmarkedCells marks =
    ((List.range s.cells.size).filter (!marks.pairs.getD · true)).reverse.map Handle.mk := by
  simp only [unmarkedCells]
  induction s.cells.size
  case zero => rfl
  case succ n hi =>
    rw [Nat.fold_succ, hi, List.range_succ]
    cases h : marks.pairs.getD n true <;> rw [Array.getD_eq_getD_getElem?] at h <;> simp [h]

theorem mem_unmarkedCells_iff :
    (⟨i⟩ : PairId) ∈ s.unmarkedCells marks ↔ i < s.cells.size ∧
      marks.pairs.getD i true = false := by
  simp [unmarkedCells_eq]

theorem cells_sweep : (s.sweep marks).cells[i]? =
    s.cells[i]?.map fun c => if marks.pairs.getD i true then c else ⟨.nil, .nil⟩ := by
  simp [sweep]

theorem mem_freeCells_collect_iff :
    (⟨i⟩ : PairId) ∈ (s.collect roots).2.freeCells ↔
      i < s.totalCells ∧ ¬s.Reachable roots ⟨.pair, i⟩ := by
  refine mem_unmarkedCells_iff.trans <| and_congr_right fun h => ?_
  rw [← trace_getD_iff .pair h, Bool.not_eq_true]
  rfl

theorem isFree_collect_iff : (s.collect roots).2.IsFree r ↔
    r.kind = .pair ∧ r.index < s.totalCells ∧ ¬s.Reachable roots r := by
  obtain ⟨kind, i⟩ := r
  simp only [IsFree, mem_freeCells_collect_iff]
  exact and_congr_right fun h => by subst h; rfl

theorem content?_collect (h : s.Reachable roots r) :
    (s.collect roots).2.content? r = s.content? r := by
  by_cases hr : r.index < s.extent r.kind
  case pos =>
    have ht := trace_getD_iff _ hr |>.mpr h
    obtain ⟨kind, i⟩ := r
    cases kind <;> simp only [Marks.flags, Array.getD_eq_getD_getElem?] at ht <;>
      simp [collect, content?, sweep, Slab.get?_sweep, ht]
  case neg =>
    have hr := Nat.le_of_not_lt hr
    rw [content?_eq_none_of_extent hr]
    apply content?_eq_none_of_extent
    obtain ⟨kind, i⟩ := r
    cases kind <;> simpa [collect, extent, sweep, Slab.sweep] using hr

theorem content?_collect_of_not_reachable (hk : r.kind ≠ .pair) (h : ¬s.Reachable roots r) :
    (s.collect roots).2.content? r = none := by
  by_cases hr : r.index < s.extent r.kind
  case pos =>
    have ht := Bool.eq_false_iff.mpr <| trace_getD_iff _ hr |>.not.mpr h
    obtain ⟨kind, i⟩ := r
    cases kind <;> simp only [Marks.flags, Array.getD_eq_getD_getElem?] at ht <;>
      simp_all [collect, content?, sweep, Slab.get?_sweep]
  case neg =>
    apply content?_eq_none_of_extent
    obtain ⟨kind, i⟩ := r
    cases kind <;> simpa [collect, extent, sweep, Slab.sweep] using Nat.le_of_not_lt hr

theorem cells_collect_of_not_reachable (hi : i < s.totalCells)
    (h : ¬s.Reachable roots ⟨.pair, i⟩) : (s.collect roots).2.cells[i]? = some ⟨.nil, .nil⟩ := by
  have ht := Bool.eq_false_iff.mpr <| trace_getD_iff .pair hi |>.not.mpr h
  simp only [Marks.flags, Array.getD_eq_getD_getElem?] at ht
  have hc : s.cells[i]? = some s.cells[i] := Array.getElem?_eq_getElem hi
  simp [collect, cells_sweep, ht, hc]

-- The numbers in the report

theorem unmarkedCells_nodup : (s.unmarkedCells marks).Nodup := by
  rw [unmarkedCells_eq]
  refine List.Nodup.map (fun _ _ h => by simpa using h) ?_
  exact List.nodup_reverse.mpr <| List.nodup_range.filter _

theorem length_unmarkedCells_le (s : Store) (marks : Marks) :
    (s.unmarkedCells marks).length ≤ s.cells.size := by
  simpa [unmarkedCells_eq] using List.length_filter_le (!marks.pairs.getD · true)
    (List.range s.cells.size)

theorem ncard_pairs {p : Nat → Prop} {n : Nat} :
    {i | i < n ∧ p i}.ncard + {i | i < n ∧ ¬p i}.ncard = n := by
  classical
  have hp : {i | i < n ∧ p i} = ((Finset.range n).filter p : Set Nat) := by ext; simp
  have hn : {i | i < n ∧ ¬p i} = ((Finset.range n).filter (¬p ·) : Set Nat) := by ext; simp
  rw [hp, hn, Set.ncard_coe_finset, Set.ncard_coe_finset, Finset.card_filter_add_card_filter_not,
    Finset.card_range]

theorem collect_cellsFreed : (s.collect roots).1.cellsFreed =
    {i | i < s.totalCells ∧ ¬s.Reachable roots ⟨.pair, i⟩}.ncard := by
  have hm : ((s.unmarkedCells (s.trace roots)).map Handle.index).Nodup :=
    List.Nodup.map (fun ⟨_⟩ ⟨_⟩ h => by simpa using h) unmarkedCells_nodup
  rw [ncard_eq_length hm fun i => ?_]
  · simp [collect, sweep]
  · rw [← mem_freeCells_collect_iff]
    simp only [List.mem_map, collect, sweep]
    exact ⟨fun ⟨⟨_⟩, h, rfl⟩ => h, fun h => ⟨_, h, rfl⟩⟩

theorem collect_cellsLive : (s.collect roots).1.cellsLive =
    {i | i < s.totalCells ∧ s.Reachable roots ⟨.pair, i⟩}.ncard := by
  have hp := ncard_pairs (p := fun i => s.Reachable roots ⟨.pair, i⟩) (n := s.totalCells)
  have hl : (s.collect roots).1.cellsLive + (s.collect roots).1.cellsFreed = s.totalCells := by
    have := s.length_unmarkedCells_le (s.trace roots)
    simp only [collect, liveCells, sweep, Array.size_mapIdx, totalCells]
    omega
  rw [collect_cellsFreed] at hl
  omega

-- The slab entries that a collection drops.
def droppedBy (s : Store) (marks : Marks) : List Ref :=
  (s.strings.dropped (marks.strings.getD · true)).map (Ref.mk .string) ++
  (s.frames.dropped (marks.frames.getD · true)).map (Ref.mk .frame) ++
  (s.closures.dropped (marks.closures.getD · true)).map (Ref.mk .closure) ++
  (s.continuations.dropped (marks.continuations.getD · true)).map (Ref.mk .continuation) ++
  (s.foreigns.dropped (marks.foreigns.getD · true)).map (Ref.mk .foreign)

theorem droppedBy_nodup (s : Store) (marks : Marks) : (s.droppedBy marks).Nodup := by
  have hm (kind : Kind) {is : List Nat} (h : is.Nodup) : (is.map (Ref.mk kind)).Nodup :=
    h.map fun _ _ h => by simpa using h
  have hd {k k' : Kind} (h : k ≠ k') {is js : List Nat} :
      ∀ a ∈ is.map (Ref.mk k), ∀ b ∈ js.map (Ref.mk k'), a ≠ b := by
    simp [h]
  simp only [droppedBy, List.nodup_append, List.mem_append, hm, Slab.dropped_nodup, true_and]
  grind

theorem mem_droppedBy_iff : r ∈ s.droppedBy marks ↔
    r.kind ≠ .pair ∧ (s.content? r).isSome ∧ (marks.flags r.kind).getD r.index true = false := by
  obtain ⟨kind, i⟩ := r
  cases kind <;> simp [droppedBy, Slab.mem_dropped_iff, content?, Marks.flags]

theorem collect_objectsFreed : (s.collect roots).1.objectsFreed =
    {r : Ref | r.kind ≠ .pair ∧ (s.content? r).isSome ∧ ¬s.Reachable roots r}.ncard := by
  rw [ncard_eq_length (s.droppedBy_nodup (s.trace roots)) fun r => ?_]
  · simp [collect, freeObjects, sweep, Slab.sweep, droppedBy]
    omega
  · refine mem_droppedBy_iff.trans <| and_congr_right fun _ => and_congr_right fun h => ?_
    have ⟨_, ho⟩ := Option.isSome_iff_exists.mp h
    rw [← trace_getD_iff _ (lt_extent_of_content? ho), Bool.not_eq_true]

-- What a collection from `roots` does to a store, and what it reports.
structure Collected (s : Store) (roots : List Ref) (report : Collection) (s' : Store) : Prop where
  -- More rounds would not have found more.
  ended : ∀ rounds, s.places ≤ rounds → s.traceFrom rounds roots (.none s) = s.trace roots
  total_eq : s'.totalCells = s.totalCells
  cell_kept_iff : ∀ i < s.totalCells,
    ((⟨i⟩ : PairId) ∉ s'.freeCells ↔ s.Reachable roots ⟨.pair, i⟩)
  entry_kept_iff : ∀ r, r.kind ≠ .pair →
    ((s'.content? r).isSome ↔ (s.content? r).isSome ∧ s.Reachable roots r)
  contents_eq : ∀ r, s.Reachable roots r → s'.content? r = s.content? r
  cleared : ∀ i < s.totalCells, ¬s.Reachable roots ⟨.pair, i⟩ →
    s'.cells[i]? = some ⟨.nil, .nil⟩
  cellsFreed_eq : report.cellsFreed =
    {i | i < s.totalCells ∧ ¬s.Reachable roots ⟨.pair, i⟩}.ncard
  objectsFreed_eq : report.objectsFreed =
    {r : Ref | r.kind ≠ .pair ∧ (s.content? r).isSome ∧ ¬s.Reachable roots r}.ncard
  cellsLive_eq : report.cellsLive =
    {i | i < s.totalCells ∧ s.Reachable roots ⟨.pair, i⟩}.ncard

-- Roots are the objects that values and environments refer to.
theorem collect_exact (s : Store) (values : List Value) (envs : List FrameId) :
    let roots := values.flatMap Value.refs ++ envs.map Handle.ref
    s.Collected roots (s.collect roots).1 (s.collect roots).2 := by
  intro roots
  constructor
  case ended => exact fun _ h => traceFrom_eq_of_le (Marks.unmarked_none s).le h
  case total_eq => simp [collect, totalCells, sweep]
  case cell_kept_iff =>
    intro i hi
    simp [mem_freeCells_collect_iff, hi]
  case entry_kept_iff =>
    intro r hk
    by_cases hr : s.Reachable roots r
    case pos => simp [content?_collect hr, hr]
    case neg => simp [content?_collect_of_not_reachable hk hr, hr]
  case contents_eq => exact fun _ => content?_collect
  case cleared => exact fun _ => cells_collect_of_not_reachable
  case cellsFreed_eq => exact collect_cellsFreed
  case objectsFreed_eq => exact collect_objectsFreed
  case cellsLive_eq => exact collect_cellsLive

end Store
end StepLisp
