import Mathlib.Data.Finset.Prod
import StepLisp.Equality
import StepLisp.Proofs.Renaming.Lookup
import StepLisp.Proofs.Text.Page

namespace StepLisp

variable {exact : Prop} {ρ : Renaming} {s s' : Store} {v v' w w' : Value}

-- Equality

namespace Store

variable {fuel fuel' : Nat} {seen seen' : Assumptions} {work work' : List (Value × Value)}

instance : Std.TransCmp comparePairs :=
  inferInstanceAs (Std.TransCmp (compareLex (compareOn Prod.fst) (compareOn Prod.snd)))

theorem comparePairs_eq_iff {a b : Nat × Nat} : comparePairs a b = .eq ↔ a = b := by
  simp [comparePairs, Ordering.then_eq_eq, Prod.ext_iff]

theorem contains_insert_iff {a b : Nat × Nat} :
    (seen.insert a).contains b ↔ a = b ∨ seen.contains b := by
  simp [Std.TreeSet.contains_insert, comparePairs_eq_iff]

-- The comparisons that may still have to be made.
def unseen (n : Nat) (seen : Assumptions) : Finset (Nat × Nat) :=
  (Finset.range n ×ˢ Finset.range n).filter fun p => !seen.contains p

theorem unseen_insert_lt {n : Nat} {p : Nat × Nat} (hp : p.1 < n ∧ p.2 < n)
    (h : ¬seen.contains p) : (unseen n (seen.insert p)).card < (unseen n seen).card := by
  apply Finset.card_lt_card
  constructor
  · intro q hq
    simp only [unseen, Finset.mem_filter, Bool.not_eq_true', ← Bool.not_eq_true] at hq ⊢
    exact ⟨hq.left, fun hc => hq.right <| contains_insert_iff.mpr <| .inr hc⟩
  · intro hs
    have hm : p ∈ unseen n seen := by simp [unseen, hp, h]
    have hq := hs hm
    simp [unseen, comparePairs_eq_iff] at hq

theorem unseen_empty_card (n : Nat) : (unseen n ∅).card = n * n := by
  simp [unseen]

-- The same comparisons have been made on the two sides.
def Assumptions.Alike (ρ : Renaming) (seen seen' : Assumptions) : Prop :=
  ∀ i i' j j' : PairId, ρ i.ref i'.ref → ρ j.ref j'.ref →
    (seen.contains (i.index, j.index) ↔ seen'.contains (i'.index, j'.index))

theorem Assumptions.Alike.insert {i i' j j' : PairId} (h : Assumptions.Alike ρ seen seen')
    (hρ : ρ.Injective) (hi : ρ i.ref i'.ref) (hj : ρ j.ref j'.ref) :
    Assumptions.Alike ρ (seen.insert (i.index, j.index)) (seen'.insert (i'.index, j'.index)) := by
  intro p p' q q' hp hq
  simp only [contains_insert_iff, Prod.mk.injEq, Handle.index_inj, hρ.handle_eq_iff hi hp,
    hρ.handle_eq_iff hj hq, h p p' q q' hp hq]

theorem equalFrom_leaf (h : (v.isPair && w.isPair) = false) :
    s.equalFrom (fuel + 1) seen ((v, w) :: work) = (do
      if ← s.leafEqual v w then s.equalFrom fuel seen work else return false) := by
  cases v <;> cases w <;> first | rfl | cases h

namespace Alike

variable (h : s.Alike exact ρ s')
include h

theorem leafEqual (hv : v.Alike ρ v') (hw : w.Alike ρ w') :
    ∃ b, s.leafEqual v w = .ok b ∧ s'.leafEqual v' w' = .ok b := by
  have hb := hv.beq_eq hw h.injective
  cases hv <;> cases hw
  case string.string hi _ _ hj =>
    have ⟨text, ht, ht'⟩ := h.string hi
    have ⟨text₂, ht₂, ht₂'⟩ := h.string hj
    simp only [Store.leafEqual, ht, ht', ht₂, ht₂', Bind.bind, Except.bind]
    exact ⟨_, rfl, rfl⟩
  case int.float | float.int => exact ⟨_, rfl, rfl⟩
  all_goals exact ⟨_, rfl, congrArg Except.ok hb⟩

-- There is enough fuel on both sides: each comparison that is added to those made leaves one less.
theorem equalFrom (hs : Assumptions.Alike ρ seen seen')
    (hw : List.Forall₂ (fun p p' => p.1.Alike ρ p'.1 ∧ p.2.Alike ρ p'.2) work work')
    (hf : work.length + 2 * (unseen s.totalCells seen).card ≤ fuel)
    (hf' : work'.length + 2 * (unseen s'.totalCells seen').card ≤ fuel') :
    ∃ b, s.equalFrom fuel seen work = .ok b ∧ s'.equalFrom fuel' seen' work' = .ok b := by
  induction fuel generalizing fuel' seen seen' work work' <;> cases hw
  case zero.nil | succ.nil => exact ⟨true, by cases fuel' <;> exact ⟨rfl, rfl⟩⟩
  case zero.cons => simp at hf
  case succ.cons fuel hi p p' work work' hp hw =>
    obtain _ | fuel' := fuel'
    · simp at hf'
    obtain ⟨v, w⟩ := p
    obtain ⟨v', w'⟩ := p'
    obtain ⟨hv, hw'⟩ := hp
    simp only [List.length_cons] at hf hf'
    by_cases hp : v.isPair && w.isPair
    case neg =>
      rw [Bool.not_eq_true] at hp
      rw [equalFrom_leaf hp, equalFrom_leaf (by rw [hv.isPair_eq, hw'.isPair_eq, hp])]
      obtain ⟨b, hb, hb'⟩ := h.leafEqual hv hw'
      simp only [hb, hb', Bind.bind, Except.bind]
      cases b
      case false => exact ⟨false, rfl, rfl⟩
      case true => exact hi hs hw (by omega) (by omega)
    case pos =>
      cases hv <;> cases hw' <;> try cases hp
      case pair.pair p p' hp q q' hq =>
        simp only [Store.equalFrom, Bool.or_eq_true, decide_eq_true_eq,
          h.injective.handle_eq_iff hp hq, ← hs p p' q q' hp hq]
        split
        case isTrue => exact hi hs hw (by omega) (by omega)
        case isFalse hn =>
          rw [not_or] at hn
          have hlt := unseen_insert_lt (n := s.totalCells)
            ⟨(h.lt_totalCells hp).left, (h.lt_totalCells hq).left⟩ hn.right
          have hlt' := unseen_insert_lt (n := s'.totalCells)
            ⟨(h.lt_totalCells hp).right, (h.lt_totalCells hq).right⟩
              ((hs _ _ _ _ hp hq).not.mp hn.right)
          refine hi (hs.insert h.injective hp hq) ?_ ?_ ?_
          · exact .cons ⟨h.car hp, h.car hq⟩ <| .cons ⟨h.cdr hp, h.cdr hq⟩ hw
          · simp only [List.length_cons]
            omega
          · simp only [List.length_cons]
            omega

theorem equal (hv : v.Alike ρ v') (hw : w.Alike ρ w') :
    ∃ b, s.equal v w = .ok b ∧ s'.equal v' w' = .ok b := by
  refine h.equalFrom (fun _ _ _ _ _ _ => by simp) (.cons ⟨hv, hw⟩ .nil) ?_ ?_
  all_goals
    rw [unseen_empty_card, List.length_singleton]
    grind

theorem equal_matches (hv : v.Alike ρ v') (hw : w.Alike ρ w') :
    Matches Eq (s.equal v w) (s'.equal v' w') := by
  have ⟨b, hb, hb'⟩ := h.equal hv hw
  rw [hb, hb']
  exact .ok rfl

end Alike
end Store

-- Images

structure Image.Alike (exact : Prop) (ρ : Renaming) (image image' : Image) : Prop where
  store : image.store.Alike exact ρ image'.store
  symbols : image.symbols = image'.symbols

namespace Image

variable {image image' : Image} {path path' : Path} {fuel fuel' : Nat} {style : Style}

def Path.Alike (ρ : Renaming) (path path' : Path) : Prop :=
  ∀ i i' : PairId, ρ i.ref i'.ref → (path.contains i.index ↔ path'.contains i'.index)

theorem Path.Alike.insert {i i' : PairId} (h : Path.Alike ρ path path') (hρ : ρ.Injective)
    (hi : ρ i.ref i'.ref) : Path.Alike ρ (path.insert i.index) (path'.insert i'.index) := by
  intro j j' hj
  simp only [Std.ExtTreeSet.contains_insert, Bool.or_eq_true, beq_iff_eq, compare_eq_iff_eq,
    Handle.index_inj, hρ.handle_eq_iff hi hj, h j j' hj]

namespace Alike

variable (h : image.Alike exact ρ image')
include h

theorem atomText (hv : v.Alike ρ v') : image.atomText style v = image'.atomText style v' := by
  cases hv
  case string hi =>
    have ⟨text, ht, ht'⟩ := h.store.string hi
    simp [Image.atomText, ht, ht']
  case closure hi =>
    have ⟨c, c', hc, hc', hl⟩ := h.store.closure hi
    simp [Image.atomText, Store.closure_of_object? hc, Store.closure_of_object? hc', hl.special]
  case foreign hi =>
    have ⟨f, hf, hf'⟩ := h.store.foreign hi
    simp [Image.atomText, hf, hf']
  case symbol => simp [Image.atomText, h.symbols]
  all_goals rfl

theorem quotation? {i i' : PairId} (hi : ρ i.ref i'.ref) :
    Option.Rel (Value.Alike ρ) (image.quotation? i) (image'.quotation? i') := by
  have ha := h.store.car hi
  have hd := h.store.cdr hi
  unfold Image.quotation?
  generalize image.store.car i = a, image'.store.car i' = a' at ha
  generalize image.store.cdr i = d, image'.store.cdr i' = d' at hd
  cases ha <;> cases hd <;> try exact .none
  case symbol.pair hi =>
    simp only [(h.store.cdr hi).isNil_eq]
    split
    case isTrue => exact .some <| h.store.car hi
    case isFalse => exact .none

-- There is enough fuel on both sides: each pair that is added to the path leaves one less.
theorem textOfList {text text' : Path → Value → String} {first : Bool}
    (hp : ∀ {path path' : Path} {v v' : Value}, Path.Alike ρ path path' →
      v.Alike ρ v' → text path v = text' path' v')
    (hpath : Path.Alike ρ path path') (hv : v.Alike ρ v')
    (hf : (unvisited image.store.totalCells path).card ≤ fuel)
    (hf' : (unvisited image'.store.totalCells path').card ≤ fuel') :
    image.textOfList text fuel first path v =
      image'.textOfList text' fuel' first path' v' := by
  induction fuel generalizing fuel' first path path' v v'
  all_goals cases hv
  case zero.nil | succ.nil => cases fuel' <;> rfl
  case zero.pair i i' hi =>
    have hc := contains_of_unvisited (h.store.lt_totalCells hi).left hf
    have hc' := (hpath _ _ hi).mp hc
    cases fuel' <;> simp [Image.textOfList, hc']
  case succ.pair fuel hn i i' hi =>
    by_cases hc : path.contains i.index
    case pos =>
      have hc' := (hpath _ _ hi).mp hc
      cases fuel' <;> simp [Image.textOfList, hc, hc']
    case neg =>
      have hc' := (hpath _ _ hi).not.mp hc
      obtain _ | fuel' := fuel'
      · exact absurd (contains_of_unvisited (h.store.lt_totalCells hi).right hf') hc'
      have hlt := unvisited_insert_lt (h.store.lt_totalCells hi).left hc
      have hlt' := unvisited_insert_lt (h.store.lt_totalCells hi).right hc'
      have hins := hpath.insert h.store.injective hi
      have hr := @hn _ _ _ _ fuel' false hins (h.store.cdr hi) (by omega) (by omega)
      simp only [Image.textOfList, hc, hc', hp hins (h.store.car hi), hr]
  all_goals
    rw [textOfList_atom rfl, textOfList_atom rfl]
    exact congrArg (" . " ++ ·) <| hp hpath (by constructor <;> assumption)

theorem textAt {levels : Nat} (hpath : Path.Alike ρ path path') (hv : v.Alike ρ v') :
    image.textAt style levels path v = image'.textAt style levels path' v' := by
  induction levels generalizing path path' v v'
  case zero => rfl
  case succ levels hl =>
    have ha : image.atomText style v = image'.atomText style v' := h.atomText hv
    cases hv
    case pair i i' hi =>
      have hu (n : Nat) (path : Path) : (unvisited n path).card ≤ n + 1 :=
        (Finset.card_filter_le ..).trans <| by simp
      simp only [Image.textAt, hpath i i' hi]
      split
      case isTrue => rfl
      case isFalse =>
        have hq := h.quotation? hi
        generalize image.quotation? i = q, image'.quotation? i' = q' at hq
        cases hq
        case some hv => exact congrArg ("'" ++ ·) <| hl (hpath.insert h.store.injective hi) hv
        case none =>
          refine congrArg ("(" ++ · ++ ")") <|
            h.textOfList ?_ hpath (.pair hi) (hu ..) (hu ..)
          exact fun hp hv => hl hp hv
    all_goals exact ha

theorem print (hv : v.Alike ρ v') : image.print style v = image'.print style v' := by
  have hp : Path.Alike ρ ∅ ∅ := fun _ _ _ => by simp
  rw [print_eq, print_eq, h.textAt hp hv]

end Alike
end Image
end StepLisp
