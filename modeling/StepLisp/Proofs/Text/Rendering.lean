import StepLisp.Proofs.Store.Unfolding
import StepLisp.Proofs.Text.Page

namespace StepLisp

open Relation

namespace Tree

-- The `x` of a list `(quote x)`.
def quoted? : Tree → Option Tree
  | pair _ (leaf (.symbol x)) (pair _ t (leaf .nil)) => if x = .quote then some t else none
  | _ => none

mutual

def text (i : Image) (style : Style) : Tree → String
  | pair _ (leaf (.symbol x)) (pair _ t (leaf .nil)) =>
    if x = .quote then "'" ++ text i style t
    else
      "(" ++ i.atomText style (.symbol x) ++ (" " ++ text i style t ++ ")")
  | pair _ t u => "(" ++ text i style t ++ textBehind i style u
  | leaf v => i.atomText style v

-- The rest of a list, behind one of its elements.
def textBehind (i : Image) (style : Style) : Tree → String
  | leaf .nil => ")"
  | pair _ t u => " " ++ text i style t ++ textBehind i style u
  | leaf v => " . " ++ i.atomText style v ++ ")"

end

mutual

-- How many levels of lists and quotes are shown inside each other.
def nesting : Tree → Nat
  | pair _ t u => max (nesting t) (nestingBehind u) + 1
  | leaf _ => 0

def nestingBehind : Tree → Nat
  | pair _ t u => max (nesting t) (nestingBehind u)
  | leaf _ => 0

end

variable {i : Image} {style : Style} {id : PairId} {t u x : Tree}

theorem text_of_quoted? (h : quoted? t = some x) :
    t.text i style = "'" ++ x.text i style ∧ x.nesting < t.nesting := by
  unfold quoted? at h
  split at h
  case h_1 =>
    split at h <;> cases h
    case isTrue hq =>
      refine ⟨by rw [text, if_pos hq], ?_⟩
      simp only [nesting, nestingBehind]
      omega
  case h_2 => cases h

theorem text_of_not_quoted? (h : quoted? (pair id t u) = none) : (pair id t u).text i style =
    "(" ++ t.text i style ++ u.textBehind i style := by
  rw [text.eq_def]
  split
  case h_1 he =>
    cases he
    rw [quoted?] at h
    split at h
    case isTrue => cases h
    case isFalse hq => simp only [text, textBehind, if_neg hq]
  case h_2 he => cases he; rfl
  case h_3 he => cases he

end Tree

namespace Image

-- The elements of a list, given the text of a single value. The pairs on the way from the root come
-- last first; one that is met again is on a circle.
inductive Elements (i : Image) (part : List PairId → Value → String → Prop) :
    Bool → List PairId → Value → String → Prop
  | nil {first way} : Elements i part first way .nil ""
  | again {first way id} : id ∈ way → TransGen i.store.Part (.pair id) (.pair id) →
    Elements i part first way (.pair id) " ..."
  | pair {first way id text rest} : id ∉ way → part (id :: way) (i.store.car id) text →
    Elements i part false (id :: way) (i.store.cdr id) rest →
    Elements i part first way (.pair id) ((if first then "" else " ") ++ text ++ rest)
  | atom {first way v text} : v.isListLike = false → part way v text →
    Elements i part first way v (" . " ++ text)

inductive Layer (i : Image) (style : Style) (part : List PairId → Value → String → Prop) :
    List PairId → Value → String → Prop
  | again {way id} : id ∈ way → TransGen i.store.Part (.pair id) (.pair id) →
    Layer i style part way (.pair id) "..."
  | quoted {way id v text} : id ∉ way → i.quotation? id = some v →
    part (id :: way) v text → Layer i style part way (.pair id) ("'" ++ text)
  | list {way id text} : id ∉ way → i.quotation? id = none →
    Elements i part true way (.pair id) text →
    Layer i style part way (.pair id) ("(" ++ text ++ ")")
  | atom {way v} : v.isPair = false → Layer i style part way v (i.atomText style v)

-- The text of a value that is shown with at most so many levels below it.
def Renders (i : Image) (style : Style) : Nat → List PairId → Value → String → Prop
  | 0, _, _, text => text = "..."
  | levels + 1, way, v, text => Layer i style (Renders i style levels) way v text

variable {i : Image} {style : Style} {path : Path} {v w : Value} {id : PairId} {t u : Tree}
  {fuel levels n : Nat} {first : Bool} {way : List PairId} {text text' : String}

theorem parts_of_quotation? (h : i.quotation? id = some v) : ∃ rest,
    i.store.car id = .symbol .quote ∧ i.store.cdr id = .pair rest ∧ i.store.car rest = v ∧
      i.store.cdr rest = .nil := by
  unfold quotation? at h
  split at h
  case h_1 x rest hcar hcdr =>
    split at h <;> cases h
    case isTrue hq =>
      obtain ⟨hx, hn⟩ := Bool.and_eq_true_iff.mp hq
      obtain rfl := of_decide_eq_true hx
      refine ⟨rest, hcar, hcdr, rfl, ?_⟩
      generalize i.store.cdr rest = w at hn
      cases w <;> first | rfl | cases hn
  case h_2 => cases h

theorem unfolds_quoted? (h : i.store.Unfolds (.pair id) t) :
    Option.Rel i.store.Unfolds (i.quotation? id) t.quoted? := by
  cases h
  case leaf h => cases h
  case pair t u hcar hcdr =>
    rcases hq : i.quotation? id with _ | v
    case some =>
      obtain ⟨rest, hx, hr, rfl, hn⟩ := parts_of_quotation? hq
      rw [hx] at hcar
      rw [hr] at hcdr
      cases hcar
      cases hcdr
      case pair hv he =>
        rw [hn] at he
        cases he
        exact .some hv
      case leaf h => cases h
    case none =>
      have ht : Tree.quoted? (.pair id t u) = none := by
        unfold Tree.quoted?
        split
        case h_1 x r t he =>
          cases he
          have hx := hcar.eq_leaf
          obtain ⟨hr, -, he⟩ := hcdr.eq_pair
          rw [quotation?, hx, hr] at hq
          simp only [he.eq_leaf, Value.isNil, Bool.and_true] at hq
          split at hq
          case isTrue => cases hq
          case isFalse hn => simpa using hn
        case h_2 => rfl
      rw [ht]
      exact .none

-- The way agrees with the path, and each pair on it leads to the value.
structure Along (i : Image) (path : Path) (way : List PairId) (v : Value) : Prop where
  contains_iff (id : PairId) : path.contains id.index ↔ id ∈ way
  leads : ∀ id ∈ way, TransGen i.store.Part (.pair id) v

theorem Along.enter (h : i.Along path way (.pair id)) (hp : TransGen i.store.Part (.pair id) v) :
    i.Along (path.insert id.index) (id :: way) v where
  contains_iff k := by
    have hi : id.index = k.index ↔ k = id := ⟨fun h => congrArg Handle.mk h.symm, fun h => h ▸ rfl⟩
    rw [Std.ExtTreeSet.contains_insert, Bool.or_eq_true, beq_iff_eq, compare_eq_iff_eq,
      List.mem_cons, h.contains_iff, hi]
  leads := List.forall_mem_cons.mpr ⟨hp, fun k hk => (h.leads k hk).trans hp⟩

theorem elements_textOfList {part : List PairId → Value → String → Prop}
    {text : Path → Value → String}
    (hp : ∀ {path way v}, i.Along path way v → part way v (text path v))
    (hl : i.Along path way v)
    (hf : v.isPair → (unvisited i.store.totalCells path).card < fuel) :
    Elements i part first way v (i.textOfList text fuel first path v) := by
  induction fuel generalizing first path way v <;> cases v
  case zero.nil | succ.nil => exact .nil
  case zero.pair => cases hf rfl
  case succ.pair fuel hi id =>
    by_cases hc : path.contains id.index
    case pos =>
      have hm := (hl.contains_iff id).mp hc
      simp only [textOfList, hc]
      exact .again hm (hl.leads id hm)
    case neg =>
      simp only [textOfList, hc]
      refine .pair ((hl.contains_iff id).not.mp hc) (hp (hl.enter (.single (.car id))))
        (hi (hl.enter (.single (.cdr id))) fun hv => ?_)
      by_cases hb : id.index < i.store.totalCells
      case pos =>
        have hlt := unvisited_insert_lt hb hc
        have hf := hf rfl
        omega
      case neg =>
        rw [(Store.parts_of_le (Nat.le_of_not_lt hb)).right] at hv
        cases hv
  all_goals
    rw [textOfList_atom rfl]
    exact .atom rfl (hp hl)

theorem renders_textAt (hl : i.Along path way v) :
    i.Renders style levels way v (i.textAt style levels path v) := by
  induction levels generalizing path way v <;> try rfl
  case succ levels hi =>
    cases v
    case pair id =>
      by_cases hc : path.contains id.index
      case pos =>
        have hm := (hl.contains_iff id).mp hc
        simp only [textAt, hc]
        exact .again hm (hl.leads id hm)
      case neg =>
        have hm := (hl.contains_iff id).not.mp hc
        rcases hq : i.quotation? id with _ | v
        case none =>
          simp only [textAt, hc, hq]
          refine .list hm hq (elements_textOfList (fun h => hi h) hl fun _ => ?_)
          exact Nat.lt_succ_of_le ((Finset.card_filter_le ..).trans (by simp))
        case some =>
          simp only [textAt, hc, hq]
          obtain ⟨rest, -, hr, rfl, -⟩ := parts_of_quotation? hq
          have hp : TransGen i.store.Part (.pair id) (i.store.car rest) :=
            .tail (.single (hr ▸ .cdr id)) (.car rest)
          exact .quoted hm hq (hi (hl.enter hp))
    all_goals exact .atom rfl

theorem Elements.unique {part : List PairId → Value → String → Prop}
    (h : Elements i part first way v text) (h' : Elements i part first way v text')
    (hp : ∀ {way v text text'}, part way v text → part way v text' → text = text') :
    text = text' := by
  induction h generalizing text' <;> cases h' <;> try contradiction
  case nil.nil | again.again => rfl
  case pair.pair hc _ hi _ _ _ hc' hr => rw [hp hc hc', hi hr]
  case atom.atom h _ _ h' => rw [hp h h']

theorem Renders.unique (h : i.Renders style levels way v text)
    (h' : i.Renders style levels way v text') : text = text' := by
  induction levels generalizing way v text text'
  case zero => rw [h, h']
  case succ levels hi =>
    cases h <;> cases h' <;> try contradiction
    case again.again | atom.atom => rfl
    case quoted.quoted hq h _ _ _ hq' h' =>
      cases hq.symm.trans hq'
      rw [hi h h']
    case list.list h _ _ _ h' => rw [h.unique h' hi]
    case quoted.list hq _ _ _ hq' _ | list.quoted hq _ _ _ _ hq' _ => cases hq.symm.trans hq'

-- There are no circles below a value that is a tree.
theorem Elements.text_eq {part : List PairId → Value → String → Prop}
    (h : Elements i part false way v text) (ht : i.store.Unfolds v t)
    (hn : t.nestingBehind < n) (hp : ∀ {way v text t}, part way v text → i.store.Unfolds v t →
      t.nesting < n → text = t.text i style) : text ++ ")" = t.textBehind i style := by
  generalize hf : false = first at h
  induction h generalizing t
  case nil => cases ht; exact String.empty_append
  case again hc => exact absurd hc (ht.acyclic _ .refl)
  case pair hc _ hi =>
    subst hf
    cases ht
    case leaf h => cases h
    case pair hcar hcdr =>
      rw [Tree.nestingBehind, Nat.max_lt] at hn
      rw [hp hc hcar hn.left, String.append_assoc, hi hcdr hn.right rfl, Tree.textBehind]
      rfl
  case atom v text hv h =>
    cases ht
    case pair => cases hv
    case leaf ht =>
      rw [hp h (.leaf ht) (Nat.zero_lt_of_lt hn), Tree.text]
      cases v <;> first | rfl | cases hv

theorem Renders.text_eq (h : i.Renders style levels way v text) (ht : i.store.Unfolds v t)
    (hn : t.nesting < levels) : text = t.text i style := by
  induction levels generalizing way v text t
  case zero => cases hn
  case succ levels hi =>
    cases h
    case again hc => exact absurd hc (ht.acyclic _ .refl)
    case quoted hq h =>
      have hr : Option.Rel i.store.Unfolds _ t.quoted? := unfolds_quoted? ht
      rw [hq] at hr
      generalize ht' : t.quoted? = t' at hr
      cases hr
      case some hx =>
        obtain ⟨he, hl⟩ := Tree.text_of_quoted? ht'
        rw [he, hi h hx (by omega)]
    case list hm hq h =>
      have hr : Option.Rel i.store.Unfolds _ t.quoted? := unfolds_quoted? ht
      rw [hq] at hr
      generalize ht' : t.quoted? = t' at hr
      cases hr
      cases ht
      case leaf h => cases h
      case pair hcar hcdr =>
        rw [Tree.nesting, Nat.succ_lt_succ_iff, Nat.max_lt] at hn
        rw [Tree.text_of_not_quoted? ht']
        cases h
        case again hm' => exact absurd hm' hm
        case pair hc hr =>
          rw [← hr.text_eq hcdr hn.right hi, hi hc hcar hn.left]
          simp only [if_true, String.empty_append, String.append_assoc]
        case atom h _ => cases h
    case atom hv =>
      cases ht
      case leaf => rw [Tree.text]
      case pair => cases hv

theorem renders_print (v : Value) : i.Renders style (maxPrintDepth + 1) [] v (i.print style v) := by
  rw [print_eq]
  exact renders_textAt ⟨fun id => by simp, nofun⟩

theorem print_eq_text (h : i.store.Unfolds v t) (hn : t.nesting ≤ maxPrintDepth) :
    i.print style v = t.text i style :=
  (renders_print v).text_eq h (Nat.lt_succ_of_le hn)

-- Printing adds a text to a page and leaves the path as it was. There is one text that a value is
-- rendered as, whether it is shared, circular or too deep, and that is the one printed. Where a
-- value is a tree of ordinary depth, it is the text of the tree.
theorem print_exact (i : Image) (style : Style) :
    (∀ levels page v, ∃ text, i.printOn style levels page v = ⟨page.path, page.out ++ text⟩) ∧
    ∀ v, (∀ text, i.Renders style (maxPrintDepth + 1) [] v text ↔ text = i.print style v) ∧
      (i.store.Acyclic v → ∃ t, i.store.Unfolds v t ∧
        (t.nesting ≤ maxPrintDepth → i.print style v = t.text i style)) := by
  refine ⟨fun levels page v => ⟨_, printOn_eq⟩, fun v => ⟨fun text => ⟨fun h => ?_, ?_⟩, ?_⟩⟩
  · exact h.unique (renders_print v)
  · rintro rfl
    exact renders_print v
  · intro ha
    have ⟨t, ht⟩ := Store.exists_unfolds ha
    exact ⟨t, ht, print_eq_text ht⟩

end Image
end StepLisp
