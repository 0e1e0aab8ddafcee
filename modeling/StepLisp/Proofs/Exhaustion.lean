import StepLisp.Proofs.Liveness
import StepLisp.Proofs.Progression

namespace StepLisp

open Act Machine Relation

-- The number of cells that are reached before a step.
noncomputable def Machine.cellsReached (m : Machine) (next : Step) : Nat :=
  {i | i < m.image.store.totalCells ∧ m.image.store.Reachable (m.roots next) ⟨.pair, i⟩}.ncard

-- How many cells the last collection has left, with the one before a step if that is due.
noncomputable def Machine.keptBefore (m : Machine) (next : Step) (c : Nat) : Nat :=
  if m.image.store.isCollectionDue then m.cellsReached next else c

noncomputable def Stage.kept (c : Nat) : Stage → Nat
  | .running _ _ .halt _ => c
  | .running _ (_ + 1) k m => m.keptBefore k c
  | _ => c

theorem Stage.kept_running {rest : Reader.Contents (Datum × Nat)} {n c : Nat} {k : Step}
    {m : Machine} (h : k ≠ .halt) : (Stage.running rest (n + 1) k m).kept c = m.keptBefore k c := by
  cases k
  case halt => contradiction
  all_goals rfl

theorem Stage.kept_limit {rest : Reader.Contents (Datum × Nat)} {c : Nat} {k : Step}
    {m : Machine} : (Stage.running rest 0 k m).kept c = c := by
  cases k <;> rfl

-- The stages of all sessions, each with the number of cells that were reached when there was a
-- collection last. As long as there has been none, that is none.
inductive Kept : Nat → Stage → Prop
  | bare {settings host output m} : bare settings host output = .ok m → Kept 0 (.idle m)
  | move {c t t'} : Kept c t → Moves t t' → Kept (t.kept c) t'

theorem Kept.reached {c : Nat} {t : Stage} (h : Kept c t) : Reached t := by
  induction h
  case bare h => exact ⟨_, _, _, _, h, .refl⟩
  case move hm hi => exact hi.course <| .single hm

theorem exists_kept {t : Stage} (h : Reached t) : ∃ c, Kept c t := by
  obtain ⟨_, _, _, m, hb, hc⟩ := h
  induction hc
  case refl => exact ⟨_, .bare hb⟩
  case tail hm hi =>
    have ⟨_, hk⟩ := hi
    exact ⟨_, hk.move hm⟩

namespace Machine

variable {c : Nat} {k : Step} {m m' : Machine}

-- The cells in use are accounted for.
structure Accounted (c : Nat) (m : Machine) : Prop where
  capacity_eq : m.image.store.capacity = m.settings.heapCells
  live_le : m.image.store.liveCells ≤ c + m.image.store.allocations

namespace Accounted

theorem of_grows (h : m.Accounted c) (hs : m'.settings = m.settings)
    (hg : m.image.store.Grows m'.image.store) : m'.Accounted c where
  capacity_eq := by rw [hg.capacity_eq, hs, h.capacity_eq]
  live_le := by
    have := h.live_le
    have := hg.counted
    omega

theorem of_follows {enters : Prop} (h : m.Accounted c) (hf : m.Follows enters m') :
    m'.Accounted c :=
  h.of_grows hf.settings_eq hf.grows

theorem left {α : Type} {x : Run α} (h : m.Accounted c) (hx : Obeys between x) :
    (x.left m).Accounted c :=
  h.of_grows (by rw [(hx.left m).eq]) (hx.left m).evolves.toGrows

theorem of_bare {settings : Settings} {host : Host} {output : Output}
    (h : bare settings host output = .ok m) :
    m.Accounted 0 := by
  have he := evolves_of_bare h
  constructor
  case capacity_eq => rw [he.capacity_eq, settings_of_around h]; rfl
  case live_le =>
    have hc := he.counted
    have hl : ((Store.allocFrame none).left
      (.new settings.heapCells settings.gcThreshold)).liveCells = 0 := rfl
    omega

theorem collectBefore (h : m.Accounted c) :
    (m.countStep.collectBefore k).Accounted (m.keptBefore k c) := by
  by_cases hd : m.image.store.isCollectionDue
  case pos =>
    rw [keptBefore, if_pos hd, collectBefore_of_due hd]
    exact ⟨h.capacity_eq, Nat.le_of_eq Store.collect_cellsLive⟩
  case neg =>
    rw [keptBefore, if_neg hd, collectBefore_of_not_due <| Bool.eq_false_iff.mpr hd]
    exact ⟨h.capacity_eq, h.live_le⟩

-- A step that is taken, with what becomes of its faults.
theorem advance (h : m.Accounted c) (hd : Disciplined k m) :
    ((advance k).left m).Accounted (m.keptBefore k c) := by
  have ho := hd.advance
  cases ha : Machine.advance k m <;> rw [ha] at ho
  case ok => exact left_of_ok ha ▸ h.collectBefore.of_follows ho.left
  case error => exact left_of_error ha ▸ h.collectBefore.of_follows ho.left

end Accounted
end Machine

theorem Kept.accounted {c : Nat} {t : Stage} (h : Kept c t) : t.machine.Accounted c := by
  induction h
  case bare h => exact .of_bare h
  case move hk hm hi =>
    have hd := disciplined_invariant.holds hk.reached
    cases hm
    case request | finish | halt => exact hi
    case define => exact hi.left define_between
    case start hb =>
      have h := left_of_ok hb ▸ hi.left (onImage_between Image.build_obeys)
      exact ⟨h.capacity_eq, h.live_le⟩
    case unbuilt hb => exact left_of_error hb ▸ hi.left (onImage_between Image.build_obeys)
    case reject => exact hi.left <| onImage_between Image.reject_obeys
    case limit =>
      rw [Stage.kept_limit]
      exact ⟨hi.capacity_eq, hi.live_le⟩
    case step hn ha =>
      rw [Stage.kept_running hn]
      exact left_of_ok ha ▸ hi.advance hd
    case fault hn ha =>
      rw [Stage.kept_running hn]
      exact left_of_error ha ▸ hi.advance hd

theorem Store.le_liveCells_of_not_hasRoom {s : Store} (h : ¬s.HasRoom) :
    s.capacity ≤ s.liveCells := by
  have ⟨hf, hc⟩ := not_or.mp h
  rw [liveCells, Classical.not_not.mp hf]
  exact Nat.le_of_not_lt hc

theorem Machine.Failed.capacity_le {walks : Prop} {used : Nat} {m : Machine}
    (h : Failed walks (.heapExhausted used) m) :
    m.image.store.capacity ≤ m.image.store.liveCells := by
  cases h.admitted
  case plain h => cases h
  case exhausted h => exact Store.le_liveCells_of_not_hasRoom h

section Main

variable {rest : Reader.Contents (Datum × Nat)} {n c used : Nat} {k : Step} {m m' : Machine}

-- A step complains of the heap only if all its cells are in use. Those that were so before the step
-- are the ones that are reached, if there has just been a collection; otherwise there are at most
-- as many as were reached at the last one and have been allocated since.
theorem exhausted_when_full (h : Kept c (.running rest n k m))
    (hf : step k (m.countStep.collectBefore k) = .error (.heapExhausted used) m' ∨
      advance k m = .error (.heapExhausted used) m') :
    let live := (m.countStep.collectBefore k).image.store.liveCells
    ∃ taken, m'.image.store.liveCells = live + taken ∧ m.settings.heapCells ≤ live + taken ∧
      if m.image.store.isCollectionDue then live = m.cellsReached k
      else m.image.store.allocations < m.image.store.threshold ∧
        live ≤ c + m.image.store.allocations := by
  have ha : m.Accounted c := h.accounted
  have hd : Disciplined k m := disciplined_invariant.holds h.reached
  have ⟨hw, hm⟩ : Outcome k.enters ((m.countStep.collectBefore k).Walks k)
      (m.countStep.collectBefore k) Pending (.error (.heapExhausted used) m') := by
    rcases hf with hs | ha
    case inl => exact hs ▸ step_outcome hd.collectBefore.pending hd.collectBefore.at
    case inr => exact ha ▸ hd.advance
  have ⟨taken, ht⟩ := Nat.exists_eq_add_of_le hw.grows.liveCells_le
  have hc := hm.capacity_le
  rw [hw.grows.capacity_eq, ha.collectBefore.capacity_eq, settings_collectBefore, ht] at hc
  refine ⟨taken, ht, hc, ?_⟩
  split
  case isTrue hd =>
    rw [collectBefore_of_due hd]
    exact Store.collect_cellsLive
  case isFalse hd =>
    rw [collectBefore_of_not_due <| Bool.eq_false_iff.mpr hd]
    exact ⟨Nat.lt_of_not_le fun hl => hd <| decide_eq_true hl, ha.live_le⟩

theorem cellsReached_lt {i : Nat} (hi : i < m.image.store.totalCells)
    (h : ¬m.image.store.Reachable (m.roots k) ⟨.pair, i⟩) :
    m.cellsReached k < m.image.store.totalCells := by
  have hp := Store.ncard_pairs (p := fun i => m.image.store.Reachable (m.roots k) ⟨.pair, i⟩)
    (n := m.image.store.totalCells)
  have hf : {i | i < m.image.store.totalCells ∧
      ¬m.image.store.Reachable (m.roots k) ⟨.pair, i⟩}.Finite :=
    (Set.finite_lt_nat _).subset fun _ => And.left
  have := (Set.ncard_pos hf).mpr ⟨i, hi, h⟩
  rw [cellsReached]
  omega

-- Where some of the cells in use are not reached, those that are and what the step takes do not
-- make up the capacity.
theorem reached_add_taken_lt {fault : Fault} (h : Reached (.running rest n k m))
    (hs : step k (m.countStep.collectBefore k) = .error fault m')
    (hd : m.image.store.isCollectionDue = false)
    (hc : m.image.store.totalCells ≤ m.settings.heapCells)
    (hl : m.cellsReached k < m.image.store.liveCells) :
    m.cellsReached k + (m'.image.store.liveCells -
      (m.countStep.collectBefore k).image.store.liveCells) < m.settings.heapCells := by
  have ⟨_, hk⟩ := exists_kept h
  have hcap : m.image.store.capacity = m.settings.heapCells := hk.accounted.capacity_eq
  have hp : Disciplined k m := disciplined_invariant.holds h
  have ho := step_outcome hp.collectBefore.pending hp.collectBefore.at
  rw [hs, collectBefore_of_not_due hd] at ho
  have hle : m.image.store.liveCells ≤ m'.image.store.liveCells := ho.left.grows.liveCells_le
  have ht : m'.image.store.totalCells ≤ max m.image.store.totalCells m.image.store.capacity :=
    ho.left.grows.totalCells_le
  have hm : m'.image.store.liveCells ≤ m'.image.store.totalCells := Nat.sub_le ..
  rw [collectBefore_of_not_due hd]
  show m.cellsReached k + (m'.image.store.liveCells - m.image.store.liveCells) < _
  omega

-- All that the objects refer to.
def Store.references (s : Store) : List Ref :=
  s.cells.toList.flatMap Cell.refs ++ s.frames.entries.toList.flatMap (refsOf Frame.refs) ++
    s.closures.entries.toList.flatMap (refsOf Closure.refs) ++
    s.continuations.entries.toList.flatMap (refsOf Continuation.refs)

section References

variable {s : Store} {roots : List Ref} {r r' : Ref}

theorem Slab.mem_flatMap_refsOf {α : Type} {slab : Slab α} {refs : α → List Ref} {i : Nat}
    (h : r ∈ Store.refsOf refs (slab.get? i)) :
    r ∈ slab.entries.toList.flatMap (Store.refsOf refs) := by
  rw [Slab.get?] at h
  cases he : slab.entries[i]? <;> rw [he] at h
  case none => cases h
  case some entry =>
    exact List.mem_flatMap.mpr ⟨entry, Array.mem_toList_iff.mpr <| Array.mem_of_getElem? he, h⟩

theorem Store.mem_references (h : r ∈ s.refs r') : r ∈ s.references := by
  obtain ⟨kind, i⟩ := r'
  simp only [references, List.mem_append]
  cases kind <;> simp only [Store.refs] at h
  case string | foreign => cases h
  case frame => exact .inl <| .inl <| .inr <| Slab.mem_flatMap_refsOf h
  case closure => exact .inl <| .inr <| Slab.mem_flatMap_refsOf h
  case continuation => exact .inr <| Slab.mem_flatMap_refsOf h
  case pair =>
    cases hc : s.cells[i]? <;> rw [hc] at h
    case none => cases h
    case some c =>
      exact .inl <| .inl <| .inl <|
        List.mem_flatMap.mpr ⟨c, Array.mem_toList_iff.mpr <| Array.mem_of_getElem? hc, h⟩

theorem Store.not_reachable (hr : r ∉ roots) (h : r ∉ s.references) : ¬s.Reachable roots r := by
  rintro (hroot | hstep)
  case root => exact hr hroot
  case step hm => exact h <| mem_references hm

end References

-- More terms are asked for than there are cells left. Of the cells in use not all are reached: the
-- one with which the last form of the prelude begins is left behind.
def manyTerms : String :=
  "(range 0 3750 1)"

def overflows (m : Machine) : Bool :=
  match Stage.next^[2] (.reading (Reader.walk manyTerms.toList) m) with
  | .running _ _ (.apply (.builtin b)) m₁ =>
    match Builtin.ofId? b, m₁.image.store.toList? m₁.control.argl with
    | some .range, some [.int start, .int stop, .int increment] =>
      !m₁.image.store.isCollectionDue && decide (start = 0 ∧ stop = 3750 ∧ increment = 1 ∧
        m₁.image.store.freeCells.length = 0 ∧ 282 < m₁.image.store.totalCells ∧
        m₁.image.store.totalCells ≤ m₁.settings.heapCells ∧ m₁.image.store.room < 3750 ∧
        ⟨.pair, 282⟩ ∉ m₁.roots (.apply (.builtin b)) ∧ ⟨.pair, 282⟩ ∉ m₁.image.store.references)
    | _, _ => false
  | _ => false

set_option maxRecDepth 20000 in
theorem exists_new_overflows :
    ∃ m, Machine.new { heapCells := 4000 } default {} = .ok m ∧ overflows m :=
  exists_new_of rfl (by decide +kernel)

theorem exists_exhausted : ∃ m rest n k m₁ used m₂,
    Machine.new { heapCells := 4000 } default {} = .ok m ∧
    m.Visits manyTerms n k m₁ ∧ Reached (.running rest n k m₁) ∧
    step k (m₁.countStep.collectBefore k) = .error (.heapExhausted used) m₂ ∧
    m₁.image.store.isCollectionDue = false ∧
    m₁.cellsReached k + (m₂.image.store.liveCells -
      (m₁.countStep.collectBefore k).image.store.liveCells) < m₁.settings.heapCells := by
  obtain ⟨m, hn, ht⟩ := exists_new_overflows
  unfold overflows at ht
  split at ht <;> try exact absurd ht Bool.false_ne_true
  case h_1 rest n b m₁ hA =>
    split at ht <;> try exact absurd ht Bool.false_ne_true
    case h_1 start stop increment hb hl =>
      simp only [Bool.and_eq_true, Bool.not_eq_true', decide_eq_true_eq] at ht
      obtain ⟨hd, rfl, rfl, rfl, hfree, hi, hc, hroom, hroot, href⟩ := ht
      have hleads : (Stage.reading (Reader.walk manyTerms.toList) m).Leads
        (.running rest n (.apply (.builtin b)) m₁) := ⟨2, hA⟩
      have hr := (reached_request (.new hn) manyTerms).course hleads.course
      have ⟨_, _, ha, _⟩ := whole_invariant.holds hr
      have ⟨terms, hp⟩ := exists_progression 0 3750 1
      have hlen : 3749 < terms.length := hp.lt_length (by decide)
      obtain ⟨used, s', hs, -⟩ := step_range_fails (m := m₁.countStep) hb (by decide) hl
        ha.image.store.sound hp (Nat.lt_of_lt_of_le hroom hlen)
      have hbefore : m₁.countStep.collectBefore (.apply (.builtin b)) = m₁.countStep :=
        collectBefore_of_not_due hd
      rw [← hbefore] at hs
      have hlt := cellsReached_lt hi <| Store.not_reachable hroot href
      refine ⟨m, rest, n, _, m₁, used, _, hn, visits_iff_leads.mpr ⟨rest, hleads⟩, hr, hs, hd,
        reached_add_taken_lt hr hs hd hc ?_⟩
      rwa [Store.liveCells, hfree]

theorem exhausted_when_full_uncollected : ∃ m c rest n k m₁ used m₂ taken,
    Machine.new { heapCells := 4000 } default {} = .ok m ∧
    m.Visits manyTerms n k m₁ ∧ Kept c (.running rest n k m₁) ∧
    step k (m₁.countStep.collectBefore k) = .error (.heapExhausted used) m₂ ∧
    m₁.settings.heapCells ≤ (m₁.countStep.collectBefore k).image.store.liveCells + taken ∧
    (m₁.countStep.collectBefore k).image.store.liveCells ≤ c + m₁.image.store.allocations := by
  obtain ⟨m, rest, n, k, m₁, used, m₂, hn, hv, hr, hs, hd, _⟩ := exists_exhausted
  obtain ⟨c, hk⟩ := exists_kept hr
  obtain ⟨taken, _, hc, h⟩ := exhausted_when_full hk (.inl hs)
  rw [hd] at h
  exact ⟨m, c, rest, n, k, m₁, used, m₂, taken, hn, hv, hk, hs, hc, h.right⟩

-- What is reached before a step and what the step takes need not make up the capacity.
theorem exhausted_before_full : ∃ m rest n k m₁ used m₂,
    Machine.new { heapCells := 4000 } default {} = .ok m ∧
    m.Visits manyTerms n k m₁ ∧ Reached (.running rest n k m₁) ∧
    step k (m₁.countStep.collectBefore k) = .error (.heapExhausted used) m₂ ∧
    m₁.cellsReached k + (m₂.image.store.liveCells -
      (m₁.countStep.collectBefore k).image.store.liveCells) < m₁.settings.heapCells := by
  obtain ⟨m, rest, n, k, m₁, used, m₂, hn, hv, hr, hs, _, h⟩ := exists_exhausted
  exact ⟨m, rest, n, k, m₁, used, m₂, hn, hv, hr, hs, h⟩

end Main
end StepLisp
