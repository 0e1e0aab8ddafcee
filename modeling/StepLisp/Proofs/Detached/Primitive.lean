import StepLisp.Proofs.Detached.Basic

namespace StepLisp

open Act

namespace Machine

variable {α : Type} {walks sees : Prop}

-- Arguments

theorem arguments_plain {b : Builtin} : Plain walks True (arguments b) := by
  refine argl_plain.bind fun _ => query_plain.bind fun vs => ?_
  split
  case h_1 => exact .pure
  case h_2 => exact malformed_plain

theorem wrongArity_plain {b : Builtin} {n : Nat} {vs : List Value} :
    Plain walks sees (wrongArity b n vs : Run α) :=
  malformed_plain

theorem oneArgument_plain {b : Builtin} : Plain walks True (oneArgument b) := by
  refine arguments_plain.bind fun vs => ?_
  split
  case h_1 => exact .pure
  case h_2 => exact wrongArity_plain

theorem twoArguments_plain {b : Builtin} : Plain walks True (twoArguments b) := by
  refine arguments_plain.bind fun vs => ?_
  split
  case h_1 => exact .pure
  case h_2 => exact wrongArity_plain

theorem threeArguments_plain {b : Builtin} : Plain walks True (threeArguments b) := by
  refine arguments_plain.bind fun vs => ?_
  split
  case h_1 => exact .pure
  case h_2 => exact wrongArity_plain

theorem looseArguments_plain : Plain walks True looseArguments :=
  argl_plain.bind fun _ => query_plain.bind fun _ => .pure

theorem pairArgument_plain {b : Builtin} {v : Value} : Plain walks sees (pairArgument b v) := by
  unfold pairArgument
  split
  case h_1 => exact .pure
  case h_2 => exact write_plain.bind fun _ => mistyped_plain

theorem update_plain {f : Store → Store} (h : ∀ s : Store, s.Evolves (f s)) :
    Plain walks sees (update f) where
  placed_eq _ _ _ _ _ := rfl
  spares m := congrArg Slab.snapshots (h m.image.store).continuations_eq
  obeys m := .of_evolves (.of_store (h m.image.store))

-- Arithmetic and order

theorem arithmetic_plain {x : Except Arithmetic α} : Plain walks sees (arithmetic x) := by
  cases x
  case ok => exact .pure
  case error => exact .throw rfl

theorem numeric_plain {b : Builtin} {op : Operation} {v w : Value} :
    Plain walks sees (numeric b op v w) := by
  unfold numeric
  split
  case h_1 => exact arithmetic_plain.bind fun _ => .pure
  case h_2 =>
    split
    case h_1 => exact arithmetic_plain.bind fun _ => .pure
    case h_2 => exact write_plain.bind fun _ => write_plain.bind fun _ => mistyped_plain

theorem less_plain {v w : Value} : Plain walks sees (less v w) := by
  unfold less
  split
  case h_1 => exact .pure
  case h_2 =>
    exact (queryOrFail_plain fun _ => .present).bind fun _ =>
      (queryOrFail_plain fun _ => .present).bind fun _ => .pure
  case h_3 =>
    split
    case h_1 => exact .pure
    case h_2 => exact write_plain.bind fun _ => write_plain.bind fun _ => mistyped_plain

-- Others

theorem expression_plain {v : Value} : Plain walks sees (expression v) := by
  unfold expression
  split
  case h_1 =>
    exact (queryOrFail_plain fun _ => .present).bind fun _ =>
      (image_plain Image.readAll_obeys).bind fun _ => .pure
  case h_2 => exact .pure

theorem emit_plain {text : String} : Plain walks sees (emit text) where
  placed_eq m c n _ _ := by
    simp only [emit]
    obtain ⟨written, output⟩ := m.output.write text
    cases written <;> rfl
  spares m := by
    simp only [emit]
    obtain ⟨written, output⟩ := m.output.write text
    cases written
    case true => rfl
    case false => exact ⟨rfl, rfl⟩
  obeys m := by
    simp only [emit]
    obtain ⟨written, output⟩ := m.output.write text
    cases written
    case true => exact ⟨rfl, rfl, rfl, .refl _, .refl _, .inr rfl⟩
    case false => exact ⟨⟨rfl, rfl, rfl, .refl _, .refl _, .inr rfl⟩, .plain rfl⟩

theorem extend_obeys {stop step term : Int64} {last : PairId} :
    Obeys (Store.conduct walks) (extend stop step term last) := by
  induction term using terms_induction stop step generalizing last
  case more term next hn hp hi =>
    rw [extend_of_precedes hn hp]
    exact Store.alloc_obeys.bind fun _ => Obeys.bind (.modify fun _ => Store.setCdr_evolves)
      fun _ => hi
  case last term hl => exact extend_of_last hl ▸ .pure _

theorem progression_obeys {start stop step : Int64} :
    Obeys (Store.conduct walks) (progression start stop step) := by
  unfold progression
  split
  case isTrue => exact Store.alloc_obeys.bind fun _ => extend_obeys.bind fun _ => .pure _
  case isFalse => exact .pure _

-- Foreign functions

theorem foreignArity_plain {function : String} {n : Nat} {args : List Value} :
    Plain walks sees (foreignArity function n args) :=
  .ite .pure mistyped_plain

theorem numberArg_plain {function : String} {v : Value} :
    Plain walks sees (numberArg function v) := by
  unfold numberArg
  split
  case h_1 => exact .pure
  case h_2 => exact mistyped_plain

theorem integerArg_plain {function : String} {v : Value} :
    Plain walks sees (integerArg function v) := by
  unfold integerArg
  split
  case h_1 => exact .pure
  case h_2 => exact mistyped_plain

theorem listArg_plain {function : String} {v : Value} : Plain walks sees (listArg function v) := by
  refine query_plain.bind fun items => ?_
  split
  case h_1 => exact .pure
  case h_2 => exact mistyped_plain

theorem noFunction_plain {group function : String} :
    Plain walks sees (noFunction group function : Run α) :=
  .throw rfl

namespace Math

theorem checked_plain {inputs : List Float} {x : Float} : Plain walks sees (checked inputs x) :=
  .ite (.throw rfl) .pure

theorem log_plain {x : Float} {base : Option Float} : Plain walks sees (log x base) := by
  refine .ite (.throw rfl) ?_
  split
  case h_1 => exact .pure
  case h_2 => exact .ite (.throw rfl) .pure

theorem rounded_plain {round : Binary64 → Option Int} {x : Float} :
    Plain walks sees (rounded round x) := by
  unfold rounded
  simp only
  split
  case h_1 => exact .pure
  case h_2 => exact .throw rfl

theorem call_plain {function : String} {args : List Value} :
    Plain walks sees (call function args) := by
  unfold call
  split
  case h_1 =>
    exact foreignArity_plain.bind fun _ => numberArg_plain.bind fun _ =>
      .ite (.throw rfl) checked_plain
  case h_2 =>
    split
    case h_1 =>
      exact foreignArity_plain.bind fun _ => numberArg_plain.bind fun _ =>
        numberArg_plain.bind fun _ => checked_plain
    case h_2 =>
      split
      case h_1 =>
        refine foreignArity_plain.bind fun _ => ?_
        split
        case h_1 => exact .pure
        case h_2 => exact numberArg_plain.bind fun _ => rounded_plain
      case h_2 =>
        refine .ite ?_ noFunction_plain
        split
        case h_1 => exact numberArg_plain.bind fun _ => log_plain
        case h_2 => exact numberArg_plain.bind fun _ => numberArg_plain.bind fun _ => log_plain
        case h_3 => exact mistyped_plain

end Math

namespace Chance

theorem draw_plain {f : Generator → α × Generator} : Plain walks sees (draw f) where
  placed_eq _ _ _ _ _ := rfl
  spares _ := rfl
  obeys _ := ⟨rfl, rfl, rfl, .refl _, .refl _, .inr rfl⟩

theorem setCars_evolves {s : Store} {list : Value} {items : List Value} :
    s.Evolves (s.setCars list items) := by
  fun_induction Store.setCars s list items
  case case1 hi => exact Store.setCar_evolves.trans hi
  case case2 => exact .refl _

theorem setCars_plain {list : Value} {items : List Value} :
    Plain walks sees (setCars list items) where
  placed_eq _ _ _ _ _ := rfl
  spares _ := congrArg Slab.snapshots setCars_evolves.continuations_eq
  obeys _ := .of_evolves (.of_store setCars_evolves)

theorem randint_plain {low high : Int64} : Plain walks sees (randint low high) :=
  .ite mistyped_plain <| draw_plain.bind fun _ => .pure

theorem choice_plain {items : List Value} : Plain walks sees (choice items) := by
  unfold choice
  split
  case h_1 => exact mistyped_plain
  case h_2 => exact draw_plain.bind fun _ => .pure

theorem shuffle_plain {list : Value} {items : List Value} : Plain walks sees (shuffle list items) :=
  draw_plain.bind fun _ => setCars_plain.bind fun _ => .pure

theorem call_plain {function : String} {args : List Value} :
    Plain walks sees (call function args) := by
  unfold call
  simp only
  split
  case h_1 => exact foreignArity_plain.bind fun _ => draw_plain.bind fun _ => .pure
  case h_2 =>
    exact foreignArity_plain.bind fun _ => integerArg_plain.bind fun _ =>
      integerArg_plain.bind fun _ => randint_plain
  case h_3 =>
    exact foreignArity_plain.bind fun _ => numberArg_plain.bind fun _ =>
      numberArg_plain.bind fun _ => draw_plain.bind fun _ => .pure
  case h_4 => exact foreignArity_plain.bind fun _ => listArg_plain.bind fun _ => choice_plain
  case h_5 => exact foreignArity_plain.bind fun _ => integerArg_plain.bind fun _ => draw_plain
  case h_6 => exact foreignArity_plain.bind fun _ => listArg_plain.bind fun _ => shuffle_plain
  case h_7 => exact noFunction_plain

end Chance

namespace Time

theorem read_plain {f : Clock → α × Clock} : Plain walks sees (read f) where
  placed_eq _ _ _ _ _ := rfl
  spares _ := rfl
  obeys _ := ⟨rfl, rfl, rfl, .refl _, .refl _, .inr rfl⟩

theorem sleep_plain {seconds : Float} : Plain walks sees (sleep seconds) := by
  refine .ite (.throw rfl) ?_
  split
  case h_1 => exact .throw rfl
  case h_2 =>
    exact { placed_eq := fun _ _ _ _ _ => rfl, spares := fun _ => rfl
            obeys := fun _ => ⟨rfl, rfl, rfl, .refl _, .refl _, .inr rfl⟩ }

theorem elapsed_plain {v : Value} : Plain walks sees (elapsed v) := by
  unfold elapsed
  split
  case h_1 =>
    exact (queryOrFail_plain fun _ => .present).bind fun ⟨_⟩ => read_plain.bind fun _ => .pure
  case h_2 => exact mistyped_plain

theorem breakDown_plain {t : Int} : Plain walks sees (breakDown t) := by
  unfold breakDown
  split
  case h_1 => exact store_plain Store.list_obeys
  case h_2 => exact .throw rfl

theorem timegm_plain {function : String} {items : List Value} :
    Plain walks sees (timegm function items) := by
  refine .ite ((Plain.mapM (fun _ => integerArg_plain) _).bind fun fields => ?_) mistyped_plain
  split
  case h_1 =>
    split
    case h_1 => exact .pure
    case h_2 => exact .throw rfl
  case h_2 => exact .throw rfl

theorem call_plain {function : String} {args : List Value} :
    Plain walks sees (call function args) := by
  unfold call
  simp only
  split
  case h_1 => exact foreignArity_plain.bind fun _ => read_plain.bind fun _ => .pure
  case h_2 => exact foreignArity_plain.bind fun _ => read_plain.bind fun _ => .pure
  case h_3 => exact foreignArity_plain.bind fun _ => numberArg_plain.bind fun _ => sleep_plain
  case h_4 =>
    exact foreignArity_plain.bind fun _ => read_plain.bind fun _ =>
      store_plain Store.allocForeign_obeys
  case h_5 => exact foreignArity_plain.bind fun _ => elapsed_plain
  case h_6 =>
    split
    case h_1 => exact read_plain.bind fun _ => breakDown_plain
    case h_2 => exact numberArg_plain.bind fun _ => breakDown_plain
    case h_3 => exact mistyped_plain
  case h_7 => exact foreignArity_plain.bind fun _ => listArg_plain.bind fun _ => timegm_plain
  case h_8 => exact noFunction_plain

end Time

theorem callForeign_plain {id : GroupId} {function : Symbol} {args : Value} :
    Plain walks sees (callForeign id function args) := by
  refine query_plain.bind fun items => ?_
  split
  case h_1 => exact malformed_plain
  case h_2 =>
    have group_plain : Plain walks sees (group id) := by
      unfold group
      split
      case h_1 => exact .pure
      case h_2 => exact .throw rfl
    refine group_plain.bind fun g => .get_bind (fun _ => ?_) fun _ _ _ => rfl
    cases g
    case math => exact Math.call_plain
    case random => exact Chance.call_plain
    case time => exact Time.call_plain

end Machine
end StepLisp
