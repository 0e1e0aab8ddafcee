import StepLisp.Proofs.Text.Build

namespace StepLisp.Store

variable {s s' s'' : Store} {u v w : Value} {id : PairId} {ids ids' : List PairId} {n fuel : Nat}

-- `s.Spine v ids w`: from `v` one gets past the pairs `ids` to `w`.
inductive Spine (s : Store) : Value → List PairId → Value → Prop
  | here {v : Value} : Spine s v [] v
  | pair {id : PairId} {ids : List PairId} {w : Value} : Spine s (s.cdr id) ids w →
    Spine s (.pair id) (id :: ids) w

-- The spine comes back to one of its pairs.
def Cyclic (s : Store) (v : Value) : Prop :=
  ∃ ids id ids', s.Spine v ids (.pair id) ∧ s.Spine (s.cdr id) ids' (.pair id)

namespace Spine

theorem trans (h : s.Spine v ids u) (h' : s.Spine u ids' w) : s.Spine v (ids ++ ids') w := by
  induction h
  case here => exact h'
  case pair hi => exact .pair (hi h')

theorem split (h : s.Spine v (ids ++ ids') w) : ∃ u, s.Spine v ids u ∧ s.Spine u ids' w := by
  induction ids generalizing v
  case nil => exact ⟨v, .here, h⟩
  case cons id ids hi =>
    cases h
    case pair h =>
      have ⟨u, hu, hw⟩ := hi h
      exact ⟨u, .pair hu, hw⟩

theorem head (h : s.Spine v (id :: ids) w) : v = .pair id ∧ s.Spine (s.cdr id) ids w := by
  cases h
  case pair h => exact ⟨rfl, h⟩

theorem stops (h : s.Spine v ids w) (hw : w.isPair = false) :
    s.Stops (fun _ => False) ids.length v := by
  induction h
  case here => exact .atom hw
  case pair hi => exact .pair id (hi hw)

-- Of two ways along a spine, one that ends at an atom goes on where the other one stops.
theorem exists_rest (h : s.Spine v ids w) (hw : w.isPair = false) (h' : s.Spine v ids' u) :
    ∃ rest, ids = ids' ++ rest ∧ s.Spine u rest w := by
  induction h' generalizing ids
  case here => exact ⟨ids, rfl, h⟩
  case pair hi =>
    cases h
    case here => cases hw
    case pair h =>
      obtain ⟨rest, rfl, hr⟩ := hi h
      exact ⟨rest, rfl, hr⟩

theorem end_unique {w' : Value} (h : s.Spine v ids w) (hw : w.isPair = false)
    (h' : s.Spine v ids' w') (hw' : w'.isPair = false) : ids = ids' ∧ w = w' := by
  obtain ⟨rest, rfl, hr⟩ := h.exists_rest hw h'
  cases hr
  case here => exact ⟨List.append_nil _, rfl⟩
  case pair => cases hw'

theorem eq_of_length {w' : Value} (h : s.Spine v ids w) (h' : s.Spine v ids' w')
    (hl : ids.length = ids'.length) : ids = ids' ∧ w = w' := by
  induction h generalizing ids'
  case here =>
    cases List.length_eq_zero_iff.mp hl.symm
    cases h'
    exact ⟨rfl, rfl⟩
  case pair hi =>
    cases h'
    case here => cases hl
    case pair h' =>
      obtain ⟨rfl, rfl⟩ := hi h' (Nat.succ.inj hl)
      exact ⟨rfl, rfl⟩

theorem not_cyclic (h : s.Spine v ids w) (hw : w.isPair = false) : ¬s.Cyclic v := by
  rintro ⟨ids₁, id, ids₂, h₁, h₂⟩
  obtain ⟨rest, -, hr⟩ := h.exists_rest hw h₁
  -- Once around the circle there is as much to go as before.
  obtain ⟨rest', hlen, hr'⟩ := hr.exists_rest hw (.pair h₂)
  rw [(hr'.end_unique hw hr hw).left] at hlen
  have := congrArg List.length hlen
  simp at this
  omega

theorem cyclic_of_not_nodup (h : s.Spine v ids w) (hn : ¬ids.Nodup) : s.Cyclic v := by
  obtain ⟨id, hd⟩ := List.exists_duplicate_iff_not_nodup.mpr hn
  obtain ⟨as, bs, rfl, ha, hb⟩ := List.cons_sublist_iff.mp (List.duplicate_iff_sublist.mp hd)
  obtain ⟨as₁, as₂, rfl⟩ := List.append_of_mem ha
  obtain ⟨bs₁, bs₂, rfl⟩ := List.append_of_mem (List.singleton_sublist.mp hb)
  rw [List.append_assoc, List.cons_append, ← List.append_assoc as₂] at h
  obtain ⟨_, h₁, hr⟩ := h.split
  obtain ⟨rfl, hr₁⟩ := hr.head
  obtain ⟨_, h₂, hr₂⟩ := hr₁.split
  obtain ⟨rfl, -⟩ := hr₂.head
  exact ⟨as₁, id, as₂ ++ bs₁, h₁, h₂⟩

theorem nodup (h : s.Spine v ids w) (hw : w.isPair = false) : ids.Nodup :=
  Classical.not_not.mp fun hn => h.not_cyclic hw (h.cyclic_of_not_nodup hn)

-- Not even a list of all cells is longer than the arena.
theorem length_le (h : s.Spine v ids w) (hw : w.isPair = false)
    (hv : ∀ id ∈ ids, id.index < s.totalCells) : ids.length ≤ s.totalCells :=
  Handle.length_le (h.nodup hw) hv

theorem collectList_eq {seen : List Value} (h : s.Spine v ids w) :
    s.collectList (fuel + ids.length) seen v =
      s.collectList fuel ((ids.map s.car).reverse ++ seen) w := by
  induction h generalizing seen
  case here => rfl
  case pair ids w _ hi =>
    rw [List.length_cons, ← Nat.add_assoc, collectList, hi]
    simp

end Spine

theorem exists_spine_of_stops (h : s.Stops (fun _ => False) n v) :
    ∃ ids w, s.Spine v ids w ∧ w.isPair = false ∧ ids.length = n := by
  induction h
  case atom v hv => exact ⟨[], v, .here, hv, rfl⟩
  case last h => exact h.elim
  case pair hi =>
    have ⟨ids, w, h, hw, hn⟩ := hi
    exact ⟨_, w, .pair h, hw, congrArg (· + 1) hn⟩

-- A spine without end goes past as many cells as one likes.
theorem exists_spine_of_not_ends (h : ¬s.Ends v) (n : Nat) :
    ∃ ids w, s.Spine v ids w ∧ ids.length = n ∧ ∀ id ∈ ids, id.index < s.totalCells := by
  induction n generalizing v
  case zero => exact ⟨[], v, .here, rfl, by simp⟩
  case succ n hi =>
    obtain ⟨id, rfl, -, hr⟩ := Stops.not_exists h
    have ⟨ids, w, hs, hl, hlt⟩ := hi hr
    refine ⟨id :: ids, w, .pair hs, congrArg (· + 1) hl, List.forall_mem_cons.mpr ⟨?_, hlt⟩⟩
    by_contra hc
    rw [cdr_of_not_lt hc] at hr
    exact hr ⟨0, .atom rfl⟩

-- There are fewer cells than that, so one of them is passed twice.
theorem cyclic_of_not_ends (h : ¬s.Ends v) : s.Cyclic v := by
  have ⟨ids, w, hs, hl, hlt⟩ := exists_spine_of_not_ends h (s.totalCells + 1)
  refine hs.cyclic_of_not_nodup fun hn => ?_
  have := Handle.length_le hn hlt
  omega

-- Any allowance for the length of a list is as good as any other that is enough for it.
theorem collectList_of_spine (h : s.Spine v ids w) (hw : w.isPair = false)
    (hn : ids.length ≤ fuel) :
    s.collectList fuel [] v = if w.isNil then some (ids.map s.car) else none := by
  obtain ⟨fuel, rfl⟩ := Nat.exists_eq_add_of_le' hn
  rw [h.collectList_eq]
  cases w
  case pair => cases hw
  all_goals cases fuel <;> simp [collectList, Value.isNil]

theorem toList?_of_spine (h : s.Spine v ids w) (hw : w.isPair = false) :
    s.toList? v = if w.isNil then some (ids.map s.car) else none :=
  collectList_of_spine h hw (h.stops hw).le_succ

theorem toList?_of_list (h : s.Spine v ids .nil) : s.toList? v = some (ids.map s.car) :=
  toList?_of_spine h rfl

theorem toList?_of_not_ends (h : ¬s.Ends v) : s.toList? v = none :=
  collectList_of_not_stops h

theorem toList?_eq_some_iff {vs : List Value} :
    s.toList? v = some vs ↔ ∃ ids, s.Spine v ids .nil ∧ ids.map s.car = vs := by
  constructor
  case mp =>
    intro h
    by_cases he : s.Ends v
    case neg => rw [toList?_of_not_ends he] at h; cases h
    case pos =>
      have ⟨n, hn⟩ := he
      obtain ⟨ids, w, hs, hw, -⟩ := exists_spine_of_stops hn
      rw [toList?_of_spine hs hw] at h
      cases w
      case nil => exact ⟨ids, hs, Option.some.inj h⟩
      all_goals cases h
  case mpr =>
    rintro ⟨ids, h, rfl⟩
    exact toList?_of_list h

theorem toList?_eq_none_iff : s.toList? v = none ↔
    s.Cyclic v ∨ ∃ ids w, s.Spine v ids w ∧ w.isListLike = false := by
  by_cases he : s.Ends v
  case neg => exact iff_of_true (toList?_of_not_ends he) (.inl <| cyclic_of_not_ends he)
  case pos =>
    have ⟨n, hn⟩ := he
    obtain ⟨ids, w, hs, hw, -⟩ := exists_spine_of_stops hn
    rw [toList?_of_spine hs hw]
    cases w
    case pair => cases hw
    case nil =>
      refine iff_of_false nofun ?_
      rintro (hc | ⟨ids', w', h', hw'⟩)
      · exact hs.not_cyclic rfl hc
      · cases w'
        case nil | pair => cases hw'
        all_goals cases (hs.end_unique rfl h' rfl).right
    all_goals exact iff_of_true rfl (.inr ⟨ids, _, hs, rfl⟩)

-- New lists

-- Nothing is lost, and so many cells are taken.
structure Gains (s : Store) (n : Nat) (s' : Store) : Prop where
  sound : s'.Sound
  object? {r : Ref} {o : Object} : s.object? r = some o → s'.object? r = some o
  room : s'.room + n = s.room

namespace Gains

theorem refl (h : s.Sound) : s.Gains 0 s :=
  ⟨h, id, rfl⟩

theorem trans {m : Nat} (h : s.Gains m s') (h' : s'.Gains n s'') : s.Gains (m + n) s'' where
  sound := h'.sound
  object? := h'.object? ∘ h.object?
  room := by rw [Nat.add_comm m n, ← Nat.add_assoc, h'.room, h.room]

theorem of_puts {r : Ref} {o : Object} (hn : s.object? r = none) (hp : s.Puts r o s')
    (hr : s'.room + n = s.room) : s.Gains n s' where
  sound := hp.sound
  object? {r' _} h := by
    have hr : r' ≠ r := by
      rintro rfl
      cases hn.symm.trans h
    rw [hp.object?_eq, if_neg hr, h]
  room := hr

end Gains

-- The pairs of a new list were not there before.
theorem consAll_gains {vs : List Value} (hs : s.Sound) (hr : vs.length ≤ s.room) :
    ∃ v s' ids, consAll vs w s = .ok v s' ∧ s.Gains vs.length s' ∧ s'.Spine v ids w ∧
      ids.map s'.car = vs.reverse ∧
      ∀ id ∈ ids, s.object? id.ref = none ∧ (s'.object? id.ref).isSome := by
  induction vs generalizing s w
  case nil => exact ⟨w, s, [], rfl, .refl hs, .here, rfl, by simp⟩
  case cons v vs hi =>
    rw [List.length_cons] at hr
    obtain ⟨id, s₁, ha⟩ := alloc_of_hasRoom (a := v) (b := w) (hasRoom_of_room (s := s) (by omega))
    obtain ⟨hn, hp⟩ := alloc_puts hs ha
    have hg : s.Gains 1 s₁ := .of_puts hn hp (room_alloc ha)
    obtain ⟨l, s', ids, hc, hg', hsp, hm, hf⟩ :=
      hi (w := .pair id) hg.sound (by have := hg.room; omega)
    have ho : s'.object? id.ref = some (.cell ⟨v, w⟩) :=
      hg'.object? <| (hp.object?_eq _).trans <| if_pos rfl
    have hlast : s'.Spine (.pair id) [id] w := .pair (by rw [cdr_of_object? ho]; exact .here)
    refine ⟨l, s', ids ++ [id], ?_, ?_, hsp.trans hlast, ?_, fun id' hid => ?_⟩
    · simp only [consAll, cons, Bind.bind, EStateM.bind, ha]
      exact hc
    · rw [List.length_cons, Nat.add_comm]
      exact hg.trans hg'
    · simp [hm, car_of_object? ho]
    · rcases List.mem_append.mp hid with hid | hid
      · obtain ⟨hn', hl⟩ := hf id' hid
        refine ⟨?_, hl⟩
        cases ho' : s.object? id'.ref
        case none => rfl
        case some => cases (hg.object? ho').symm.trans hn'
      · cases List.mem_singleton.mp hid
        exact ⟨hn, by rw [ho]; rfl⟩

theorem list_gains {vs : List Value} (hs : s.Sound) (hr : vs.length ≤ s.room) :
    ∃ v s' ids, list vs s = .ok v s' ∧ s.Gains vs.length s' ∧ s'.Spine v ids .nil ∧
      ids.map s'.car = vs ∧
      ∀ id ∈ ids, s.object? id.ref = none ∧ (s'.object? id.ref).isSome := by
  have hr' : vs.reverse.length ≤ s.room := by simpa using hr
  have h := consAll_gains (w := .nil) hs hr'
  simpa only [List.length_reverse, List.reverse_reverse, list] using h

theorem length_le_room_of_consAll {vs : List Value} {v : Value} (h : consAll vs w s = .ok v s') :
    vs.length ≤ s.room := by
  induction vs generalizing s w
  case nil => exact Nat.zero_le _
  case cons u vs hi =>
    simp only [consAll, cons, Bind.bind, EStateM.bind] at h
    cases ha : alloc u w s <;> rw [ha] at h
    case error => cases h
    case ok =>
      have := room_alloc ha
      have := hi h
      rw [List.length_cons]
      omega

theorem length_le_room_of_list {vs : List Value} {v : Value} (h : list vs s = .ok v s') :
    vs.length ≤ s.room := by
  simpa using length_le_room_of_consAll h

-- Exactly the lists are taken for lists. How many pairs are allowed for makes no difference from
-- the size of the arena on, and a new list is taken for what was put into it.
theorem toList?_exact (s : Store) (v : Value) :
    (∀ vs, s.toList? v = some vs ↔ ∃ ids, s.Spine v ids .nil ∧ ids.map s.car = vs) ∧
    (s.toList? v = none ↔ s.Cyclic v ∨ ∃ ids w, s.Spine v ids w ∧ w.isListLike = false) ∧
    (∀ ids, s.Spine v ids .nil → (∀ id ∈ ids, id.index < s.totalCells) →
      ids.length ≤ s.totalCells ∧
      ∀ n ≥ s.totalCells, s.collectList n [] v = some (ids.map s.car)) ∧
    ∀ vs, s.Sound → vs.length ≤ s.room →
      ∃ w s', list vs s = .ok w s' ∧ s'.toList? w = some vs := by
  refine ⟨fun _ => toList?_eq_some_iff, toList?_eq_none_iff, fun ids h hv => ?_, fun vs hs hr => ?_⟩
  · have hle := h.length_le rfl hv
    exact ⟨hle, fun n hn => collectList_of_spine h rfl (Nat.le_trans hle hn)⟩
  · have ⟨w, s', ids, hl, _, hsp, hm, _⟩ := list_gains hs hr
    exact ⟨w, s', hl, toList?_eq_some_iff.mpr ⟨ids, hsp, hm⟩⟩

-- A list that takes up all the cells there can be.
theorem toList?_exact_full : ∃ w s' ids, list [.int 1, .int 2] (.new 2 1) = .ok w s' ∧
    s'.room = 0 ∧ s'.toList? w = some [.int 1, .int 2] ∧ s'.Spine w ids .nil ∧
    ids.length = s'.totalCells ∧ s'.collectList s'.totalCells [] w = some (ids.map s'.car) := by
  have ⟨w, s', hl, hs⟩ := (toList?_exact (.new 2 1) .nil).right.right.right [.int 1, .int 2] .new
    (by decide)
  obtain ⟨hsome, -, hguard, -⟩ := toList?_exact s' w
  obtain ⟨ids, hsp, -⟩ := (hsome _).mp hs
  cases hl
  have hids : ids = [⟨1⟩, ⟨0⟩] := (hsp.end_unique rfl (.pair <| .pair .here) rfl).left
  subst hids
  exact ⟨_, _, _, rfl, rfl, hs, hsp, rfl, (hguard _ hsp (by decide)).right _ (Nat.le_refl _)⟩

end StepLisp.Store
