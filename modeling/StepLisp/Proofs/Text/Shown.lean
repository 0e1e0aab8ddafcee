import StepLisp.Proofs.Store.Sound
import StepLisp.Proofs.Symbols
import StepLisp.Proofs.Text.Rendering
import StepLisp.Proofs.Text.Written

namespace StepLisp

namespace Datum

def pairs : Datum → Nat
  | pair d e => d.pairs + e.pairs + 1
  | _ => 0

theorem pairs_lt_of_quoted? {d x : Datum} (h : quoted? d = some x) : x.pairs < d.pairs := by
  rw [eq_of_quoted? h]
  simp only [tagged, pairs]
  omega

end Datum

namespace Image

variable {i i' : Image} {v w : Value} {d e : Datum}

-- A value stands for a datum.
inductive Shows (i : Image) : Value → Datum → Prop
  | nil : Shows i .nil .nil
  | truth : Shows i .truth .truth
  | int (n : Int64) : Shows i (.int n) (.int n)
  | float (x : Float) : Shows i (.float x) (.float x)
  | string {id : StringId} {text : String} :
      i.store.object? id.ref = some (.string text) → Shows i (.string id) (.string text)
  | symbol {x : Symbol} {name : String} :
      i.symbols.names[x.id]? = some name → Shows i (.symbol x) (.symbol name)
  | pair {id : PairId} {v w : Value} {d e : Datum} :
      i.store.object? id.ref = some (.cell ⟨v, w⟩) → Shows i v d → Shows i w e →
      Shows i (.pair id) (.pair d e)

theorem Shows.unique (h : i.Shows v d) (h' : i.Shows v e) : d = e := by
  induction h generalizing e
  case string hs =>
    cases h'
    case string hs' => cases hs.symm.trans hs'; rfl
  case symbol hx =>
    cases h'
    case symbol hx' => cases hx.symm.trans hx'; rfl
  case pair hc _ _ hcar hcdr =>
    cases h'
    case pair hv hw hc' =>
      cases hc.symm.trans hc'
      rw [hcar hv, hcdr hw]
  all_goals cases h'; rfl

variable {t u : Tree} {n : Nat}

-- A tree stands for a datum if its leaves do.
inductive Depicts (i : Image) : Tree → Datum → Prop
  | leaf {v : Value} {d : Datum} : i.Shows v d → d.IsAtom → Depicts i (.leaf v) d
  | pair {id : PairId} {t u : Tree} {d e : Datum} :
      Depicts i t d → Depicts i u e → Depicts i (.pair id t u) (.pair d e)

theorem Shows.exists_tree (h : i.Shows v d) : ∃ t, i.store.Unfolds v t ∧ i.Depicts t d := by
  induction h
  case pair hc _ _ hi hi' =>
    have ⟨t, ht, hd⟩ := hi
    have ⟨u, hu, he⟩ := hi'
    refine ⟨_, .pair ?_ ?_, .pair hd he⟩
    · rw [Store.car_of_object? hc]
      exact ht
    · rw [Store.cdr_of_object? hc]
      exact hu
  all_goals exact ⟨_, .leaf rfl, .leaf (by constructor <;> assumption) (by nofun)⟩

theorem Shows.atomText (h : i.Shows v d) (ha : d.IsAtom) :
    i.atomText .written v = d.atomText := by
  cases h
  case pair => exact absurd rfl (ha _ _)
  case string hs => simp [Image.atomText, Store.string_of_object? hs, Datum.atomText, Style.string]
  case symbol hx => simp [Image.atomText, SymbolTable.name, hx, Datum.atomText]
  all_goals rfl

theorem Depicts.nesting_eq (h : i.Depicts t d) :
    t.nesting = d.nesting ∧ t.nestingBehind = d.nestingBehind := by
  induction h
  case leaf v d hv ha =>
    cases d <;> first | exact ⟨rfl, rfl⟩ | exact absurd rfl (ha _ _)
  case pair d e _ _ hi hi' =>
    refine ⟨?_, by rw [Tree.nestingBehind, Datum.nestingBehind, hi.left, hi'.right]⟩
    rw [Tree.nesting, hi.left, hi'.right]
    cases hq : (Datum.pair d e).quoted?
    case none => rw [(Datum.text_of_not_quoted? hq).right]
    case some x =>
      obtain ⟨rfl, rfl⟩ := Datum.pair.inj <| Datum.eq_of_quoted? hq
      rw [(Datum.text_of_quoted? hq).right]
      simp [Datum.nesting, Datum.nestingBehind]

section

variable (hq : i.symbols.names[Symbol.quote.id]? = some "quote")
include hq

theorem Depicts.quoted? (h : i.Depicts t d) :
    Option.Rel i.Depicts t.quoted? d.quoted? := by
  cases h
  case leaf v hv ha =>
    cases hv
    case pair => exact absurd rfl (ha _ _)
    all_goals exact .none
  case pair id t u d e ht hu =>
    cases ht <;> try exact .none
    case leaf v hv ha =>
      cases hv <;> try exact .none
      case symbol x name hx =>
        by_cases hn : name = "quote"
        case pos =>
          subst hn
          obtain rfl := SymbolTable.eq_of_names hx hq
          cases hu
          case leaf hv ha =>
            cases hv
            case pair => exact absurd rfl (ha _ _)
            all_goals exact .none
          case pair t u d e ht hu =>
            cases hu
            case leaf hv ha =>
              cases hv
              case nil => exact .some ht
              case pair => exact absurd rfl (ha _ _)
              all_goals exact .none
            case pair => exact .none
        case neg =>
          have hx : x ≠ .quote := by
            rintro rfl
            exact hn <| Option.some.inj <| hx.symm.trans hq
          have ht : (Tree.pair id (.leaf (.symbol x)) u).quoted? = none := by
            unfold Tree.quoted?
            split
            case h_1 he =>
              cases he
              simp [hx]
            case h_2 => rfl
          have hd : (Datum.pair (.symbol name) e).quoted? = none := by
            simp [Datum.quoted?, hn]
          rw [ht, hd]
          exact .none

theorem Depicts.text_eq (h : i.Depicts t d) :
    t.text i .written = d.text ∧ t.textBehind i .written = d.textBehind := by
  induction hn : d.pairs using Nat.strong_induction_on generalizing t d
  case h n hi =>
    subst hn
    have hr := h.quoted? hq
    cases h
    case leaf v hv ha =>
      have ht := hv.atomText ha
      cases hv
      case pair => exact absurd rfl (ha _ _)
      case nil => exact ⟨rfl, rfl⟩
      all_goals exact ⟨ht, congrArg (" . " ++ · ++ ")") ht⟩
    case pair id t u d e ht hu =>
      have ⟨htd, _⟩ := hi d.pairs (by rw [Datum.pairs]; omega) ht rfl
      have ⟨_, hue⟩ := hi e.pairs (by rw [Datum.pairs]; omega) hu rfl
      refine ⟨?_, by rw [Tree.textBehind, Datum.textBehind, htd, hue]⟩
      generalize htq : (Tree.pair id t u).quoted? = x,
        hdq : (Datum.pair d e).quoted? = y at hr
      cases hr
      case none =>
        rw [Tree.text_of_not_quoted? htq, (Datum.text_of_not_quoted? hdq).left, htd, hue]
      case some hx =>
        rw [(Tree.text_of_quoted? htq).left, (Datum.text_of_quoted? hdq).left,
          (hi _ (Datum.pairs_lt_of_quoted? hdq) hx rfl).left]

end

-- What is written of a value is the text of the datum it stands for.
theorem Shows.write_eq (hq : i.symbols.names[Symbol.quote.id]? = some "quote") (h : i.Shows v d)
    (hn : d.nesting ≤ maxPrintDepth) : i.write v = d.text := by
  have ⟨t, ht, hd⟩ := h.exists_tree
  rw [write, print_eq_text ht (hd.nesting_eq.left ▸ hn), (hd.text_eq hq).left]

end Image
end StepLisp
