import Mathlib.Data.Finset.Card
import StepLisp.Printer

namespace StepLisp.Image

variable {image : Image} {style : Style} {path : Path} {page : Page} {v : Value} {id : PairId}
  {fuel levels : Nat}

-- The elements of a list, given the text of a single value.
def textOfList (image : Image) (text : Path → Value → String) :
    Nat → Bool → Path → Value → String
  | _, _, _, .nil => ""
  | 0, _, _, .pair _ => " ..."
  | fuel + 1, first, path, .pair id =>
    if path.contains id.index then " ..."
    else
      (if first then "" else " ") ++ text (path.insert id.index) (image.store.car id) ++
        textOfList image text fuel false (path.insert id.index) (image.store.cdr id)
  | _, _, path, atom => " . " ++ text path atom

def textAt (image : Image) (style : Style) : Nat → Path → Value → String
  | 0, _, _ => "..."
  | levels + 1, path, .pair id =>
    if path.contains id.index then "..."
    else
      match image.quotation? id with
      | some v => "'" ++ textAt image style levels (path.insert id.index) v
      | none =>
        "(" ++ image.textOfList (textAt image style levels)
          (image.store.totalCells + 1) true path (.pair id) ++ ")"
  | _ + 1, _, atom => image.atomText style atom

theorem textOfList_atom {text : Path → Value → String} {first : Bool} (h : v.isListLike = false) :
    image.textOfList text fuel first path v = " . " ++ text path v := by
  cases fuel <;> cases v <;> first | rfl | cases h

theorem printList_atom {print : Page → Value → Page} {entered : List PairId}
    (h : v.isListLike = false) : image.printList print fuel entered page v =
      entered.foldl Page.leave ((print (page.put " . ") v).put ")") := by
  cases fuel <;> cases v <;> first | rfl | cases h

namespace Page

theorem path_put {text : String} : (page.put text).path = page.path :=
  rfl

theorem put_enter {text : String} : (page.put text).enter id = (page.enter id).put text :=
  rfl

theorem put_put {text text' : String} : (page.put text).put text' = page.put (text ++ text') := by
  simp only [put, String.append_assoc]

theorem leave_enter {text : String} (h : ¬page.path.contains id.index) :
    ((page.enter id).put text).leave id = page.put text := by
  have he : (page.path.insert id.index).erase id.index = page.path := by
    refine Std.ExtTreeSet.ext_mem fun k => ?_
    rw [Std.ExtTreeSet.contains_iff_mem] at h
    rw [Std.ExtTreeSet.mem_erase, Std.ExtTreeSet.mem_insert, ne_eq, Nat.compare_eq_eq]
    constructor
    · exact fun hk => hk.right.resolve_left hk.left
    · exact fun hk => ⟨fun he => h (he ▸ hk), .inr hk⟩
  simp only [leave, put, enter, he]

end Page

-- Whatever has been entered is left again.
theorem printList_eq {print : Page → Value → Page} {text : Path → Value → String}
    {entered : List PairId} (hp : ∀ page v, print page v = page.put (text page.path v)) :
    image.printList print fuel entered page v = entered.foldl Page.leave (page.put
      (image.textOfList text fuel entered.isEmpty page.path v ++ ")")) := by
  induction fuel generalizing entered page v <;> cases v
  case zero.nil | succ.nil => simp only [printList, textOfList, String.empty_append]
  case zero.pair => simp only [printList, textOfList, Page.put_put]
  case succ.pair fuel hi id =>
    simp only [printList, textOfList]
    split
    case isTrue => rw [Page.put_put]
    case isFalse hc =>
      have hs : (if entered.isEmpty then page else page.put " ") =
          page.put (if entered.isEmpty then "" else " ") := by
        split
        case isTrue => simp only [Page.put, String.append_empty]
        case isFalse => rfl
      rw [hs, hp, hi, Page.put_enter, Page.put_put, Page.put_put, List.foldl_cons,
        Page.leave_enter hc, List.isEmpty_cons]
      simp only [Page.path_put, String.append_assoc]
      rfl
  all_goals
    rw [printList_atom rfl, textOfList_atom rfl, hp, Page.put_put, Page.put_put, Page.path_put,
      String.append_assoc]

theorem printOn_eq :
    image.printOn style levels page v = page.put (image.textAt style levels page.path v) := by
  induction levels generalizing page v
  case zero => rfl
  case succ levels hi =>
    cases v
    case pair id =>
      simp only [printOn, textAt]
      split
      case isTrue => rfl
      case isFalse hc =>
        rcases image.quotation? id with _ | v
        case none =>
          simp only [printList_eq fun page v => hi, Page.put_put, String.append_assoc]
          rfl
        case some =>
          simp only [hi, Page.put_put, Page.leave_enter hc]
          rfl
    all_goals rfl

theorem print_eq : image.print style v = image.textAt style (maxPrintDepth + 1) ∅ v := by
  rw [print, printOn_eq]
  exact String.empty_append

-- The cells that are not on the way from the root.
def unvisited (n : Nat) (path : Path) : Finset Nat :=
  (Finset.range n).filter fun i => !path.contains i

theorem mem_unvisited {n i : Nat} (hi : i < n) (h : ¬path.contains i) : i ∈ unvisited n path := by
  simpa [unvisited, hi, ← Std.ExtTreeSet.contains_iff_mem] using h

theorem unvisited_insert_lt {n i : Nat} (hi : i < n) (h : ¬path.contains i) :
    (unvisited n (path.insert i)).card < (unvisited n path).card := by
  apply Finset.card_lt_card
  constructor
  · intro j hj
    simp only [unvisited, Finset.mem_filter, Std.ExtTreeSet.contains_insert] at hj ⊢
    exact ⟨hj.left, by simp_all⟩
  · intro hs
    have hj := hs <| mem_unvisited hi h
    simp [unvisited] at hj

theorem contains_of_unvisited {n i : Nat} (hi : i < n) (h : (unvisited n path).card ≤ 0) :
    path.contains i := by
  by_contra hc
  exact absurd (Finset.card_pos.mpr ⟨i, mem_unvisited hi hc⟩) (Nat.not_lt_of_le h)

end StepLisp.Image
