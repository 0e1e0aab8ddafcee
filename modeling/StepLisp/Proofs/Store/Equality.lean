import StepLisp.Proofs.Renaming.Observe
import StepLisp.Proofs.Store.Unfolding

namespace StepLisp

open Relation Float.Model

-- Identity of values is symmetric.

theorem UnpackedFloat.compare_eq_comm {a b : UnpackedFloat} (h : a.compare b = some .eq) :
    b.compare a = some .eq := by
  have finite {m n : Nat} {d e : Int} (h : (compare d e).then (compare m n) = .eq) :
      (compare e d).then (compare n m) = .eq := by
    rw [Ordering.then_eq_eq, compare_eq_iff_eq, compare_eq_iff_eq] at h ⊢
    exact ⟨h.left.symm, h.right.symm⟩
  cases a <;> cases b <;> try cases h
  case infinity.infinity s s' => cases s <;> cases s' <;> first | rfl | cases h
  case infinity.zero s s' => cases s <;> cases h
  case infinity.finite s s' _ _ _ => cases s <;> cases h
  case zero.zero => rfl
  case zero.infinity s s' => cases s' <;> cases h
  case zero.finite s s' _ _ _ => cases s' <;> cases h
  case finite.infinity s _ _ _ s' => cases s' <;> cases h
  case finite.zero s _ _ _ s' => cases s <;> cases h
  case finite.finite s m d hm s' n e hn =>
    cases s <;> cases s' <;> try cases h
    case negative.negative =>
      have h : ((compare d e).then (compare m n)).swap = .eq := Option.some.inj h
      rw [Ordering.swap_eq_eq] at h
      exact congrArg some (Ordering.swap_eq_eq.mpr (finite h))
    case positive.positive => exact congrArg some (finite (Option.some.inj h))

theorem Float.beq_symm {x y : Float} (h : x == y) : y == x := by
  have h : x.toModel.unpack.compare y.toModel.unpack == some .eq := h
  have h' := UnpackedFloat.compare_eq_comm (beq_iff_eq.mp h)
  show y.toModel.unpack.compare x.toModel.unpack == some .eq
  exact beq_iff_eq.mpr h'

theorem Value.beq_symm {v w : Value} (h : v == w) : w == v := by
  cases v <;> cases w <;> try cases h
  case float.float => exact Float.beq_symm h
  case nil.nil | truth.truth => rfl
  case int.int n m => exact BEq.symm (a := n) h
  case symbol.symbol x y => exact BEq.symm (a := x) h
  case builtin.builtin b c => exact BEq.symm (a := b) h
  case string.string i j | pair.pair i j | closure.closure i j | continuation.continuation i j |
      foreign.foreign i j => exact BEq.symm (a := i) h

namespace Store

-- Equality of two values that are not pairs.
inductive SameLeaf (s : Store) : Value → Value → Prop
  | string {i j : StringId} {text : String} :
    s.string i = .ok text → s.string j = .ok text → SameLeaf s (.string i) (.string j)
  | int {n : Int64} {x : Float} : Float.ofInt n.toInt == x → SameLeaf s (.int n) (.float x)
  | float {n : Int64} {x : Float} : Float.ofInt n.toInt == x → SameLeaf s (.float x) (.int n)
  | identical {x y : Value} : x.isPair = false → x == y → SameLeaf s x y

-- What two values have to do with each other if `R` holds them to be equal.
inductive Matched (s : Store) (R : Value → Value → Prop) : Value → Value → Prop
  | same (p : PairId) : Matched s R (.pair p) (.pair p)
  | parts {p q : PairId} :
    R (s.car p) (s.car q) → R (s.cdr p) (s.cdr q) → Matched s R (.pair p) (.pair q)
  | leaf {x y : Value} : s.SameLeaf x y → Matched s R x y

-- What need not be compared any more.
inductive Known (s : Store) (seen : Assumptions) : Value → Value → Prop
  | same (p : PairId) : Known s seen (.pair p) (.pair p)
  | seen {p q : PairId} : seen.contains (p.index, q.index) → Known s seen (.pair p) (.pair q)
  | leaf {x y : Value} : s.SameLeaf x y → Known s seen x y

-- What comes of working off pairs of values, however long it takes.
inductive Decides (s : Store) : Assumptions → List (Value × Value) → Bool → Prop
  | done {seen} : Decides s seen [] true
  | known {seen x y work b} :
    s.Known seen x y → Decides s seen work b → Decides s seen ((x, y) :: work) b
  | parts {seen p q work b} : p ≠ q →
    Decides s (seen.insert (p.index, q.index))
      ((s.car p, s.car q) :: (s.cdr p, s.cdr q) :: work) b →
    Decides s seen ((.pair p, .pair q) :: work) b
  | differs {seen x y work} : (x.isPair && y.isPair) = false → ¬s.SameLeaf x y →
    Decides s seen ((x, y) :: work) false

-- Recursion on trees. Where `shared` holds, a pair is equal to itself whatever is below it.
def SameTree (s : Store) (shared : Prop) : Tree → Tree → Prop
  | .pair p car cdr, .pair q car' cdr' =>
    shared ∧ p = q ∨ s.SameTree shared car car' ∧ s.SameTree shared cdr cdr'
  | .leaf x, .leaf y => s.SameLeaf x y
  | _, _ => False

variable {s : Store} {seen : Assumptions} {work : List (Value × Value)} {x y : Value} {p q : PairId}
  {R : Value → Value → Prop} {b : Bool} {t u : Tree}

theorem SameLeaf.not_pair (h : s.SameLeaf x y) : x.isPair = false ∧ y.isPair = false := by
  cases h
  case identical hp h =>
    refine ⟨hp, ?_⟩
    cases x <;> cases y <;> first | rfl | cases h | cases hp
  all_goals exact ⟨rfl, rfl⟩

theorem SameLeaf.symm (h : s.SameLeaf x y) : s.SameLeaf y x := by
  have hp := h.not_pair
  cases h
  case string hi hj => exact .string hj hi
  case int h => exact .float h
  case float h => exact .int h
  case identical h => exact .identical hp.right (Value.beq_symm h)

theorem leafEqual_string {i j : StringId} (hi : s.Whole (.string i)) (hj : s.Whole (.string j)) :
    ∃ b, s.leafEqual (.string i) (.string j) = .ok b ∧
      (b = true ↔ s.SameLeaf (.string i) (.string j)) := by
  have ⟨a, ha⟩ := hi.exists_string
  have ⟨b, hb⟩ := hj.exists_string
  simp only [leafEqual, ha, hb, Bind.bind, Except.bind]
  refine ⟨a == b, rfl, ⟨fun h => ?_, fun h => ?_⟩⟩
  · rw [eq_of_beq h] at ha
    exact .string ha hb
  · cases h
    case string hi hj => simp [Except.ok.inj (ha.symm.trans hi), Except.ok.inj (hb.symm.trans hj)]
    case identical _ h =>
      have h : i = j := eq_of_beq (a := i) h
      subst h
      simp [Except.ok.inj (ha.symm.trans hb)]

theorem leafEqual_eq (hp : (x.isPair && y.isPair) = false) (hx : s.Whole x) (hy : s.Whole y) :
    ∃ b, s.leafEqual x y = .ok b ∧ (b = true ↔ s.SameLeaf x y) := by
  cases x <;> cases y
  case string.string => exact leafEqual_string hx hy
  case int.float n x =>
    refine ⟨_, rfl, .int, fun h => ?_⟩
    cases h
    case int h => exact h
    case identical h => cases h
  case float.int x n =>
    refine ⟨_, rfl, .float, fun h => ?_⟩
    cases h
    case float h => exact h
    case identical h => cases h
  case pair.pair => cases hp
  all_goals
    refine ⟨_, rfl, fun h => ?_, fun h => ?_⟩
    · first | exact .identical rfl h | cases h
    · cases h
      first | done | assumption

-- The comparison

theorem equalFrom_decides {fuel : Nat} (hw : ∀ e ∈ work, s.Whole e.1 ∧ s.Whole e.2)
    (hf : work.length + 2 * (unseen s.totalCells seen).card ≤ fuel) :
    ∃ b, s.equalFrom fuel seen work = .ok b ∧ s.Decides seen work b := by
  induction fuel generalizing seen work <;> obtain _ | ⟨⟨x, y⟩, work⟩ := work
  case zero.nil | succ.nil => exact ⟨true, by rw [equalFrom]; rfl, .done⟩
  case zero.cons => simp at hf
  case succ.cons fuel hi =>
    obtain ⟨⟨hx, hy⟩, hr⟩ := List.forall_mem_cons.mp hw
    rw [List.length_cons] at hf
    have hm : work.length + 2 * (unseen s.totalCells seen).card ≤ fuel := by omega
    by_cases hp : x.isPair && y.isPair
    case neg =>
      rw [Bool.not_eq_true] at hp
      obtain ⟨b, hb, hl⟩ := leafEqual_eq hp hx hy
      rw [equalFrom_leaf hp, hb]
      cases b
      case false => exact ⟨false, rfl, .differs hp (Bool.false_ne_true ∘ hl.mpr)⟩
      case true =>
        obtain ⟨b, he, hd⟩ := hi hr hm
        exact ⟨b, he, .known (.leaf (hl.mp rfl)) hd⟩
    case pos =>
      cases x <;> cases y <;> try cases hp
      case pair.pair p q =>
        rw [equalFrom]
        split
        case isTrue hk =>
          have hk : s.Known seen (.pair p) (.pair q) := by
            obtain hk | hk := Bool.or_eq_true_iff.mp hk
            · exact of_decide_eq_true hk ▸ .same p
            · exact .seen hk
          obtain ⟨b, he, hd⟩ := hi hr hm
          exact ⟨b, he, .known hk hd⟩
        case isFalse hk =>
          rw [Bool.or_eq_true, decide_eq_true_eq, not_or] at hk
          have hlt := unseen_insert_lt (n := s.totalCells)
            ⟨hx.lt_totalCells, hy.lt_totalCells⟩ hk.right
          have hp : ∀ e ∈ (s.car p, s.car q) :: (s.cdr p, s.cdr q) :: work,
              s.Whole e.1 ∧ s.Whole e.2 := by
            refine List.forall_mem_cons.mpr ⟨⟨hx.part (.car p), hy.part (.car q)⟩, ?_⟩
            exact List.forall_mem_cons.mpr ⟨⟨hx.part (.cdr p), hy.part (.cdr q)⟩, hr⟩
          have hm : (work.length + 1 + 1) +
              2 * (unseen s.totalCells (seen.insert (p.index, q.index))).card ≤ fuel := by omega
          obtain ⟨b, he, hd⟩ := hi hp hm
          exact ⟨b, he, .parts hk.left hd⟩

theorem equal_decides (hx : s.Whole x) (hy : s.Whole y) :
    ∃ b, s.equal x y = .ok b ∧ s.Decides ∅ [(x, y)] b := by
  refine equalFrom_decides (by simpa using ⟨hx, hy⟩) ?_
  rw [unseen_empty_card, List.length_singleton]
  grind

-- Nothing that is equal is told apart.
theorem Decides.complete (h : s.Decides seen work b) (hR : ∀ x y, R x y → s.Matched R x y)
    (hw : ∀ e ∈ work, R e.1 e.2) : b = true := by
  induction h
  case done => rfl
  case known hi => exact hi (List.forall_mem_cons.mp hw).right
  case parts hn _ hi =>
    obtain ⟨hr, hw⟩ := List.forall_mem_cons.mp hw
    cases hR _ _ hr
    case same => exact absurd rfl hn
    case parts hcar hcdr =>
      exact hi <| List.forall_mem_cons.mpr ⟨hcar, List.forall_mem_cons.mpr ⟨hcdr, hw⟩⟩
    case leaf hl => cases hl.not_pair.left
  case differs hp hn =>
    obtain ⟨hr, -⟩ := List.forall_mem_cons.mp hw
    cases hR _ _ hr
    case same | parts => cases hp
    case leaf hl => exact absurd hl hn

-- What is known, or will be once the work is done.
def Settled (s : Store) (seen : Assumptions) (work : List (Value × Value)) (x y : Value) : Prop :=
  (x, y) ∈ work ∨ s.Known seen x y

-- Whatever is taken for granted is borne out by the parts.
def Justified (s : Store) (seen : Assumptions) (work : List (Value × Value)) : Prop :=
  ∀ p q : PairId, seen.contains (p.index, q.index) →
    s.Settled seen work (s.car p) (s.car q) ∧ s.Settled seen work (s.cdr p) (s.cdr q)

theorem Settled.known {p' q' : Value} (h : s.Settled seen ((p', q') :: work) x y)
    (hk : s.Known seen p' q') : s.Settled seen work x y := by
  obtain h | h := h
  · obtain h | h := List.mem_cons.mp h
    · cases h
      exact .inr hk
    · exact .inl h
  · exact .inr h

theorem Settled.parts (h : s.Settled seen ((.pair p, .pair q) :: work) x y) :
    s.Settled (seen.insert (p.index, q.index))
      ((s.car p, s.car q) :: (s.cdr p, s.cdr q) :: work) x y := by
  obtain h | h := h
  · obtain h | h := List.mem_cons.mp h
    · cases h
      exact .inr <| .seen <| contains_insert_iff.mpr <| .inl rfl
    · exact .inl <| List.mem_cons_of_mem _ <| List.mem_cons_of_mem _ h
  · refine .inr ?_
    cases h
    case same => exact .same _
    case seen h => exact .seen <| contains_insert_iff.mpr <| .inr h
    case leaf h => exact .leaf h

-- Nothing that differs is taken to be equal.
theorem Decides.sound (h : s.Decides seen work true) (hj : s.Justified seen work) :
    ∃ seen', s.Justified seen' [] ∧ ∀ x y, s.Settled seen work x y → s.Known seen' x y := by
  generalize hb : true = b at h
  induction h
  case done seen => exact ⟨seen, hj, fun x y h => h.resolve_left List.not_mem_nil⟩
  case known hk _ hi =>
    have ⟨seen', hj', hs⟩ := hi (fun p q hc => (hj p q hc).imp (·.known hk) (·.known hk)) hb
    exact ⟨seen', hj', fun x y h => hs x y (h.known hk)⟩
  case parts seen p q work _ _ _ hi =>
    have hj : s.Justified (seen.insert (p.index, q.index))
        ((s.car p, s.car q) :: (s.cdr p, s.cdr q) :: work) := by
      intro p' q' hc
      obtain hc | hc := contains_insert_iff.mp hc
      · cases p; cases q; cases p'; cases q'; cases hc
        exact ⟨.inl <| List.mem_cons_self, .inl <| List.mem_cons_of_mem _ List.mem_cons_self⟩
      · exact (hj p' q' hc).imp Settled.parts Settled.parts
    have ⟨seen', hj', hs⟩ := hi hj hb
    exact ⟨seen', hj', fun x y h => hs x y h.parts⟩
  case differs => cases hb

theorem equal_iff (hx : s.Whole x) (hy : s.Whole y) : ∃ b, s.equal x y = .ok b ∧
    (b = true ↔ ∃ R : Value → Value → Prop, R x y ∧ ∀ x y, R x y → s.Matched R x y) := by
  have ⟨b, he, hd⟩ := equal_decides hx hy
  refine ⟨b, he, ?_, fun ⟨R, hr, hR⟩ => hd.complete hR (by simpa using hr)⟩
  rintro rfl
  have ⟨seen, hj, hs⟩ := hd.sound (fun p q hc => by simp at hc)
  refine ⟨s.Known seen, hs x y (.inl List.mem_cons_self), fun x y hk => ?_⟩
  cases hk
  case same => exact .same _
  case seen hc =>
    have ⟨hcar, hcdr⟩ := hj _ _ hc
    exact .parts (hcar.resolve_left List.not_mem_nil) (hcdr.resolve_left List.not_mem_nil)
  case leaf hl => exact .leaf hl

theorem exists_matched_symm (h : ∃ R, R x y ∧ ∀ x y, R x y → s.Matched R x y) :
    ∃ R, R y x ∧ ∀ x y, R x y → s.Matched R x y := by
  obtain ⟨R, hr, hR⟩ := h
  refine ⟨flip R, hr, fun x y h => ?_⟩
  cases hR _ _ h
  case same => exact .same _
  case parts hcar hcdr => exact .parts hcar hcdr
  case leaf h => exact .leaf h.symm

-- Trees

theorem sameTree_of_matched (hx : s.Unfolds x t) (hy : s.Unfolds y u)
    (hR : ∀ x y, R x y → s.Matched R x y) (h : R x y) : s.SameTree True t u := by
  induction hx generalizing y u
  case leaf hp =>
    cases hR _ _ h
    case same | parts => cases hp
    case leaf hl =>
      cases hy
      case leaf => exact hl
      case pair => cases hl.not_pair.right
  case pair hi hi' =>
    cases hR _ _ h
    case leaf hl => cases hl.not_pair.left
    case same =>
      cases hy
      case leaf hp => cases hp
      case pair => exact .inl ⟨trivial, rfl⟩
    case parts hcar hcdr =>
      cases hy
      case leaf hp => cases hp
      case pair hy hy' => exact .inr ⟨hi hy hcar, hi' hy' hcdr⟩

theorem matched_of_sameTree (hx : s.Unfolds x t) (hy : s.Unfolds y u) (h : s.SameTree True t u) :
    s.Matched (fun x y => ∃ t u, s.Unfolds x t ∧ s.Unfolds y u ∧ s.SameTree True t u) x y := by
  cases hx <;> cases hy
  case leaf.leaf => exact .leaf h
  case leaf.pair | pair.leaf => cases h
  case pair.pair hcar hcdr _ _ _ hcar' hcdr' =>
    obtain ⟨-, rfl⟩ | ⟨h, h'⟩ := h
    · exact .same _
    · exact .parts ⟨_, _, hcar, hcar', h⟩ ⟨_, _, hcdr, hcdr', h'⟩

theorem matched_iff_sameTree (hx : s.Unfolds x t) (hy : s.Unfolds y u) :
    (∃ R, R x y ∧ ∀ x y, R x y → s.Matched R x y) ↔ s.SameTree True t u := by
  refine ⟨fun ⟨R, h, hR⟩ => sameTree_of_matched hx hy hR h, fun h => ?_⟩
  refine ⟨fun x y => ∃ t u, s.Unfolds x t ∧ s.Unfolds y u ∧ s.SameTree True t u,
    ⟨t, u, hx, hy, h⟩, ?_⟩
  rintro x y ⟨t, u, hx, hy, h⟩
  exact matched_of_sameTree hx hy h

theorem sameTree_self (h : ∀ v ∈ t.leaves, v == v) (ht : s.Unfolds x t) :
    s.SameTree False t t := by
  induction ht
  case leaf hp => exact .identical hp (h _ List.mem_cons_self)
  case pair hi hi' =>
    obtain ⟨hcar, hcdr⟩ := List.forall_mem_append.mp h
    exact .inr ⟨hi hcar, hi' hcdr⟩

-- Only a value that differs from itself makes a difference to pairs that are shared.
theorem sameTree_iff (hx : s.Unfolds x t) (hy : s.Unfolds y u) (h : ∀ v ∈ t.leaves, v == v) :
    s.SameTree True t u ↔ s.SameTree False t u := by
  induction hx generalizing y u <;> cases hy
  case leaf.leaf | leaf.pair | pair.leaf => exact Iff.rfl
  case pair.pair p t t' ht ht' hi hi' q u u' hu hu' =>
    obtain ⟨hcar, hcdr⟩ := List.forall_mem_append.mp h
    simp only [SameTree, true_and, false_and, false_or, hi hu hcar, hi' hu' hcdr]
    refine ⟨fun he => he.elim ?_ id, .inr⟩
    rintro rfl
    rw [ht.unique hu, ht'.unique hu'] at *
    exact ⟨sameTree_self hcar hu, sameTree_self hcdr hu'⟩

-- The comparison comes to an answer on circular values, too, and the answer is the greatest
-- relation that the parts of pairs bear out. On trees it compares leaf by leaf. That a pair is
-- taken to equal itself, whatever its parts, makes a difference only where a leaf differs from
-- itself: a number that is not one.
theorem equal_exact (s : Store) (x y : Value) (hx : s.Whole x) (hy : s.Whole y) :
    ∃ b, s.equal x y = .ok b ∧
      (b = true ↔ ∃ R : Value → Value → Prop, R x y ∧ ∀ x y, R x y → s.Matched R x y) ∧
      s.equal y x = .ok b ∧
      (s.Acyclic x → s.Acyclic y → ∃ t u, s.Unfolds x t ∧ s.Unfolds y u ∧
        (b = true ↔ s.SameTree True t u) ∧
        ((∀ v ∈ t.leaves, v == v) → (b = true ↔ s.SameTree False t u))) := by
  have ⟨b, hb, h⟩ := equal_iff hx hy
  have ⟨c, hc, h'⟩ := equal_iff hy hx
  have hs : b = c := by
    rw [Bool.eq_iff_iff, h, h']
    exact ⟨exists_matched_symm, exists_matched_symm⟩
  refine ⟨b, hb, h, hs ▸ hc, fun hax hay => ?_⟩
  have ⟨t, ht⟩ := exists_unfolds hax
  have ⟨u, hu⟩ := exists_unfolds hay
  have hm := h.trans (matched_iff_sameTree ht hu)
  exact ⟨t, u, ht, hu, hm, fun hl => hm.trans (sameTree_iff ht hu hl)⟩

-- A circle of one pair and a circle of two.
def circles : Store :=
  { Store.new 3 1 with cells := #[⟨.truth, .pair ⟨0⟩⟩, ⟨.truth, .pair ⟨2⟩⟩, ⟨.truth, .pair ⟨1⟩⟩] }

theorem equal_exact_circles : circles.Whole (.pair ⟨0⟩) ∧ circles.Whole (.pair ⟨1⟩) ∧
    circles.equal (.pair ⟨0⟩) (.pair ⟨1⟩) = .ok true ∧
    circles.equal (.pair ⟨1⟩) (.pair ⟨0⟩) = .ok true ∧
    ∃ R : Value → Value → Prop, R (.pair ⟨0⟩) (.pair ⟨1⟩) ∧
      ∀ x y, R x y → circles.Matched R x y := by
  have hw : circles.Whole (.pair ⟨0⟩) := whole_of_cells (by decide) (by decide)
  have hw' : circles.Whole (.pair ⟨1⟩) := whole_of_cells (by decide) (by decide)
  have ⟨b, hb, h, hs, _⟩ := equal_exact circles _ _ hw hw'
  have ht : (circles.equal (.pair ⟨0⟩) (.pair ⟨1⟩)).toOption = some true := by decide +kernel
  rw [hb] at ht
  obtain rfl := Option.some.inj ht
  exact ⟨hw, hw', hb, hs, h.mp rfl⟩

end Store
end StepLisp
