import StepLisp.Proofs.Act
import StepLisp.Proofs.Store.Sound
import StepLisp.Proofs.Walk
import StepLisp.Store.Scope

namespace StepLisp

theorem Handle.length_le {kind : Kind} {is : List (Handle kind)} {n : Nat} (hn : is.Nodup)
    (h : ∀ i ∈ is, i.index < n) : is.length ≤ n := by
  have hi : (is.map Handle.index).Nodup := hn.map fun ⟨_⟩ ⟨_⟩ => congrArg Handle.mk
  simpa using length_le_of_lt hi fun j hj => by
    obtain ⟨i, hi, rfl⟩ := List.mem_map.mp hj
    exact h i hi

namespace Store

variable {s : Store} {v : Value} {stop : PairId → Prop} {n : Nat} {i : PairId}

-- Chains of pairs

-- `Stops s stop n v`: the walk along the pairs of `v` looks at `n` of them and comes to an end.
inductive Stops (s : Store) (stop : PairId → Prop) : Nat → Value → Prop
  | atom {v : Value} : v.isPair = false → Stops s stop 0 v
  | last {i : PairId} : stop i → Stops s stop 1 (.pair i)
  | pair {i : PairId} {n : Nat} : ¬stop i → Stops s stop n (s.cdr i) →
    Stops s stop (n + 1) (.pair i)

theorem Stops.atom_iff (hv : v.isPair = false) : s.Stops stop n v ↔ n = 0 := by
  constructor
  case mp =>
    rintro (_ | _ | _)
    · rfl
    all_goals cases hv
  case mpr =>
    rintro rfl
    exact .atom hv

theorem Stops.pair_iff : s.Stops stop n (.pair i) ↔
    stop i ∧ n = 1 ∨ ¬stop i ∧ ∃ k, n = k + 1 ∧ s.Stops stop k (s.cdr i) := by
  constructor
  case mp =>
    rintro (h | h | ⟨hs, h⟩)
    · cases h
    · exact .inl ⟨h, rfl⟩
    · exact .inr ⟨hs, _, rfl, h⟩
  case mpr =>
    rintro (⟨h, rfl⟩ | ⟨hs, k, rfl, h⟩)
    · exact .last h
    · exact .pair hs h

-- A walk without end is at a pair at which it does not stop, and goes on without end.
theorem Stops.not_exists (h : ¬∃ n, s.Stops stop n v) :
    ∃ i, v = .pair i ∧ ¬stop i ∧ ¬∃ n, s.Stops stop n (s.cdr i) := by
  cases v
  case pair i =>
    have hs : ¬stop i := fun hs => h ⟨1, .last hs⟩
    exact ⟨i, rfl, hs, fun ⟨n, hn⟩ => h ⟨n + 1, .pair hs hn⟩⟩
  all_goals exact absurd ⟨0, .atom rfl⟩ h

-- The pairs of a value come to an end.
def Ends (s : Store) (v : Value) : Prop :=
  ∃ n, s.Stops (fun _ => False) n v

theorem Ends.stops (h : s.Ends v) : ∃ n, s.Stops stop n v := by
  have ⟨n, hn⟩ := h
  clear h
  induction hn
  case atom hv => exact ⟨0, .atom hv⟩
  case last h => exact h.elim
  case pair i n _ _ hi =>
    have ⟨k, hk⟩ := hi
    by_cases hs : stop i
    case pos => exact ⟨1, .last hs⟩
    case neg => exact ⟨k + 1, .pair hs hk⟩

def tail (s : Store) : Value → Value
  | .pair i => s.cdr i
  | v => v

-- The pairs among the places of a walk.
def pairsOf (vs : List Value) : List PairId :=
  vs.filterMap Value.pair?

theorem pairsOf_nodup {vs : List Value} (hn : vs.Nodup) : (pairsOf vs).Nodup := by
  refine hn.filterMap fun v w i hv hw => ?_
  cases v <;> cases hv
  cases w <;> cases hw
  rfl

theorem pairsOf_length_le {vs : List Value} (hn : vs.Nodup)
    (h : ∀ i, .pair i ∈ vs → i.index < n) : (pairsOf vs).length ≤ n := by
  refine Handle.length_le (pairsOf_nodup hn) fun i hi => ?_
  obtain ⟨w, hw, hp⟩ := List.mem_filterMap.mp hi
  cases w <;> cases hp
  exact h _ hw

theorem Stops.walk (h : s.Stops stop n v) :
    ∃ vs, Walk (fun v => ∀ i, v = .pair i → stop i) s.tail v vs ∧ (pairsOf vs).length = n := by
  induction h
  case atom v hv =>
    refine ⟨[v], .stop ?_, ?_⟩
    · rintro i rfl
      cases hv
    · cases v <;> first | rfl | cases hv
  case last h => exact ⟨_, .stop fun | _, rfl => h, rfl⟩
  case pair i n hs _ hi =>
    have ⟨vs, hw, hn⟩ := hi
    exact ⟨.pair i :: vs, .step (fun h => hs <| h i rfl) hw, congrArg (· + 1) hn⟩

-- There are not more pairs to look at than there are cells.
theorem Stops.le {P : Value → Prop} (h : s.Stops stop n v)
    (hp : ∀ i, P (.pair i) → i.index < s.totalCells ∧ P (s.cdr i)) (hv : P v) :
    n ≤ s.totalCells := by
  have ⟨vs, hw, hn⟩ := h.walk
  have hm : ∀ w ∈ vs, P w := by
    refine hw.forall_mem (fun w hw hs => ?_) hv
    cases w
    case pair i => exact (hp i hw).right
    all_goals exact absurd (fun _ h => nomatch h) hs
  exact hn ▸ pairsOf_length_le hw.nodup fun i hi => (hp i <| hm _ hi).left

theorem cdr_of_not_lt (h : ¬i.index < s.totalCells) : s.cdr i = .nil := by
  simp only [cdr, Array.getD_eq_getD_getElem?]
  rw [Array.getElem?_eq_none (Nat.not_lt.mp h)]
  rfl

def isCell (s : Store) (i : PairId) : Bool :=
  i.index < s.totalCells

-- A pair that is no cell has nothing after it, so a walk passes at most one of them.
theorem length_le_of_walk {vs : List Value}
    (h : Walk (fun v => ∀ i, v = .pair i → stop i) s.tail v vs) :
    (pairsOf vs).length ≤ ((pairsOf vs).filter s.isCell).length + 1 := by
  induction h
  case stop v _ =>
    have hle := List.length_filterMap_le Value.pair? [v]
    exact Nat.le_trans hle (Nat.le_add_left _ _)
  case step v vs hs hw hi =>
    cases v
    case pair i =>
      have hc : pairsOf (.pair i :: vs) = i :: pairsOf vs := rfl
      by_cases hl : s.isCell i
      case pos => simpa [hc, List.filter_cons, hl] using hi
      case neg =>
        have hn : s.tail (.pair i) = .nil := cdr_of_not_lt <| by simpa [isCell] using hl
        rw [hn] at hw
        have hv : vs = [.nil] := hw.unique <| .stop fun _ h => nomatch h
        rw [hc, hv]
        exact Nat.le_add_left _ _
    all_goals exact absurd (fun _ h => nomatch h) hs

theorem Stops.le_succ (h : s.Stops stop n v) : n ≤ s.totalCells + 1 := by
  have ⟨vs, hw, hn⟩ := h.walk
  have hle : ((pairsOf vs).filter s.isCell).length ≤ s.totalCells :=
    Handle.length_le ((pairsOf_nodup hw.nodup).filter _) fun i hi => by
      simpa [isCell] using (List.mem_filter.mp hi).right
  have := length_le_of_walk hw
  omega

-- Lists

theorem collectList_of_stops {seen : List Value} {fuel : Nat}
    (h : s.Stops (fun _ => False) n v) (hn : n ≤ fuel) :
    s.collectList fuel seen v = s.collectList n seen v := by
  induction h generalizing seen fuel
  case atom v hv => cases fuel <;> cases v <;> first | rfl | cases hv
  case last h => exact h.elim
  case pair hi =>
    obtain _ | fuel := fuel
    · cases hn
    · exact hi <| Nat.le_of_succ_le_succ hn

theorem collectList_of_not_stops {seen : List Value} {fuel : Nat}
    (h : ¬∃ n, s.Stops (fun _ => False) n v) : s.collectList fuel seen v = none := by
  induction fuel generalizing seen v
  all_goals obtain ⟨i, rfl, hs, hr⟩ := Stops.not_exists h
  case zero => rfl
  case succ hi => exact hi hr

-- Scopes

-- Where the lookup of a name ends: in a frame that binds it, or that has no parent.
def Settles (s : Store) (x : Symbol) (e : FrameId) : Prop :=
  ∀ f, s.frame e = .ok f → (f.get? x).isSome ∨ f.parent = none

def parentOf (s : Store) (e : FrameId) : FrameId :=
  match s.frame e with
  | .ok f => f.parent.getD e
  | .error _ => e

variable {x : Symbol} {e e' : FrameId} {l : List FrameId} {fuel : Nat}

theorem exists_of_not_settles (h : ¬s.Settles x e) : ∃ f parent, s.frame e = .ok f ∧
    f.get? x = none ∧ f.parent = some parent ∧ s.parentOf e = parent := by
  simp only [Settles, not_forall, not_or] at h
  obtain ⟨f, hf, hx, hp⟩ := h
  obtain ⟨parent, hp⟩ := Option.ne_none_iff_exists'.mp hp
  exact ⟨f, parent, hf, by simpa using hx, hp, by simp [parentOf, hf, hp]⟩

-- What is said of a name by the frame that binds it, if there is one.
def bound (s : Store) (x : Symbol) : Option FrameId → Except Fault (Option Value)
  | none => return none
  | some e => return (← s.frame e).get? x

theorem bound_of_frame {f : Frame} (h : s.frame e = .ok f) :
    s.bound x (some e) = .ok (f.get? x) := by
  rw [bound, h]
  rfl

-- A lookup is a search for the nearest frame that binds the name.
theorem lookupFrom_eq : s.lookupFrom x fuel e = s.binderFrom x fuel e >>= s.bound x := by
  induction fuel generalizing e
  case zero => rfl
  case succ hi =>
    simp only [lookupFrom, binderFrom]
    cases hf : s.frame e
    case error => rfl
    case ok f =>
      simp only [Bind.bind, Except.bind]
      cases hx : f.get? x
      case some =>
        have hb := bound_of_frame (x := x) hf
        rw [hx] at hb
        exact hb.symm
      case none =>
        cases hp : f.parent
        case none => rfl
        case some => exact hi

theorem lookup?_eq : s.lookup? e x = s.binder? e x >>= s.bound x :=
  lookupFrom_eq

theorem binderFrom_succ_of_not_settles (h : ¬s.Settles x e) :
    s.binderFrom x (fuel + 1) e = s.binderFrom x fuel (s.parentOf e) := by
  have ⟨f, parent, hf, hx, hp, he⟩ := exists_of_not_settles h
  simp [binderFrom, hf, hx, hp, he, Bind.bind, Except.bind]

theorem binderFrom_succ_of_settles {fuel' : Nat} (h : s.Settles x e) :
    s.binderFrom x (fuel + 1) e = s.binderFrom x (fuel' + 1) e := by
  simp only [binderFrom]
  cases hf : s.frame e
  case error => rfl
  case ok f =>
    simp only [Bind.bind, Except.bind]
    rcases h f hf with hx | hp
    case inl =>
      obtain ⟨v, hx⟩ := Option.isSome_iff_exists.mp hx
      simp [hx]
    case inr => simp [hp]

-- The parent of each frame.
def parents (s : Store) (i : Nat) : Option (Option FrameId) :=
  (s.frames.get? i).map Frame.parent

-- From parent to parent, a scope leads to one that has none.
inductive Within (parents : Nat → Option (Option FrameId)) (root : FrameId) : FrameId → Prop
  | root : parents root.index = some none → Within parents root root
  | child {e p : FrameId} : parents e.index = some (some p) → Within parents root p →
    Within parents root e

-- All scopes that there are lie within one.
def ScopedIn (s : Store) (root : FrameId) : Prop :=
  ∀ e : FrameId, (s.parents e.index).isSome → Within s.parents root e

def Scoped (s : Store) : Prop :=
  ∃ root, s.ScopedIn root

theorem frame_of_parents {p : Option FrameId} (h : s.parents e.index = some p) :
    ∃ f, s.frame e = .ok f ∧ f.parent = p := by
  have ⟨f, hf, hp⟩ := Option.map_eq_some_iff.mp h
  exact ⟨f, by rw [frame, hf, present], hp⟩

theorem lt_size_of_parents (h : (s.parents e.index).isSome) :
    e.index < s.frames.entries.size :=
  Slab.lt_size_of_isSome <| by simpa [parents] using h

theorem Within.walk {root : FrameId} (h : Within s.parents root e) (x : Symbol) :
    ∃ l, Walk (s.Settles x) s.parentOf e l ∧ ∀ e ∈ l, e.index < s.frames.entries.size := by
  induction h
  case root hp =>
    have ⟨f, hf, hn⟩ := frame_of_parents hp
    refine ⟨[root], .stop ?_, ?_⟩
    · simp [Settles, hf, hn]
    · simpa using lt_size_of_parents (hp ▸ rfl)
  case child e p hp _ hi =>
    have ⟨l, hw, hl⟩ := hi
    have hlt := lt_size_of_parents (s := s) (e := e) (hp ▸ rfl)
    by_cases hs : s.Settles x e
    case pos => exact ⟨[e], .stop hs, by simpa using hlt⟩
    case neg =>
      have ⟨f, hf, hn⟩ := frame_of_parents hp
      have he : s.parentOf e = p := by simp [parentOf, hf, hn]
      exact ⟨e :: l, .step hs (he ▸ hw), by simpa [hlt] using hl⟩

-- A frame that is not there is where the walk ends.
theorem Scoped.walk (h : s.Scoped) (e : FrameId) (x : Symbol) :
    ∃ l, Walk (s.Settles x) s.parentOf e l ∧ l.length ≤ s.chainBound := by
  have ⟨root, h⟩ := h
  cases hp : s.parents e.index
  case none =>
    refine ⟨[e], .stop fun f hf => ?_, Nat.le_add_left _ _⟩
    have hn : s.frames.get? e.index = none := Option.map_eq_none_iff.mp hp
    rw [frame, hn] at hf
    cases hf
  case some =>
    have ⟨l, hw, hl⟩ := (h e <| hp ▸ rfl).walk x
    exact ⟨l, hw, Nat.le_succ_of_le <| Handle.length_le hw.nodup hl⟩

variable {walks : Prop}

theorem binderFrom_proper : Proper True (s.binderFrom x fuel e) := by
  fun_induction binderFrom s x fuel e
  case case1 =>
    rintro _ ⟨⟩
    exact .endless trivial
  case case2 hi =>
    refine Proper.present.bind fun f => ?_
    split
    case h_1 => exact .ok
    case h_2 =>
      split
      case h_1 p _ => exact hi p
      case h_2 => exact .ok

theorem binderFrom_proper_of_settles (h : s.Settles x e) :
    Proper walks (s.binderFrom x (fuel + 1) e) := by
  simp only [binderFrom]
  cases hf : s.frame e
  case error =>
    rintro _ ⟨⟩
    exact (Proper.present : Proper walks (s.frame e)) _ hf
  case ok f =>
    simp only [Bind.bind, Except.bind]
    rcases h f hf with hx | hp
    case inl =>
      obtain ⟨v, hx⟩ := Option.isSome_iff_exists.mp hx
      simp only [hx]
      exact .ok
    case inr =>
      simp only [hp]
      split <;> exact .ok

-- A search that has no end is one in a store whose scopes are not as they should be.
theorem binder?_proper : Proper (¬s.Scoped) (s.binder? e x) := by
  by_cases hs : s.Scoped
  case neg => exact binderFrom_proper.imp fun _ => hs
  case pos =>
    have ⟨l, hw, hl⟩ := hs.walk e x
    exact hw.holds (fun _ _ => binderFrom_proper_of_settles)
      (fun _ _ => binderFrom_succ_of_not_settles) hl

theorem bound_proper {b : Option FrameId} : Proper walks (s.bound x b) := by
  cases b
  case none => exact .ok
  case some => exact Proper.present.bind fun _ => .ok

theorem lookup?_proper : Proper (¬s.Scoped) (s.lookup? e x) :=
  lookup?_eq ▸ binder?_proper.bind fun _ => bound_proper

end Store
end StepLisp
