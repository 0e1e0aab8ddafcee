import StepLisp.Proofs.Detached.Form
import StepLisp.Proofs.Detached.Primitive

namespace StepLisp

-- Builtins that neither evaluate an expression, apply a procedure nor touch the continuation.
def Builtin.isNative : Builtin → Bool
  | «begin» | «do» | «if» | cond | define | set | special | quasiquote | trap | ffi
  | apply | callcc | callWithCurrentContinuation | eval => false
  | _ => true

namespace Machine

def Delivers (walks : Prop) (y : Run Step) : Prop :=
  ∃ x, Plain walks True x ∧ y = x >>= deliver

variable {α : Type} {walks : Prop} {x : Run α} {f : α → Run Step}

theorem Plain.delivers {x : Run Value} (h : Plain walks True x) : Delivers walks (x >>= deliver) :=
  ⟨x, h, rfl⟩

namespace Delivers

theorem deliver {v : Value} : Delivers walks (deliver v) :=
  Plain.pure.delivers

theorem throw {fault : Fault} (h : fault.isPlain) : Delivers walks (throw fault) :=
  ⟨MonadExcept.throw fault, .throw h, rfl⟩

theorem bind (hx : Plain walks True x) (hf : ∀ a, Delivers walks (f a)) :
    Delivers walks (x >>= f) := by
  have ⟨g, hg⟩ := Classical.axiomOfChoice hf
  refine ⟨x >>= g, hx.bind fun a => (hg a).left, ?_⟩
  rw [bind_assoc]
  exact congrArg _ <| funext fun a => (hg a).right

end Delivers

theorem minus_delivers : Delivers walks minus := by
  refine .bind looseArguments_plain fun vs => ?_
  split
  case h_1 => exact .deliver
  case h_2 => exact numeric_plain.delivers
  case h_3 => exact numeric_plain.delivers
  case h_4 => exact .throw rfl

theorem nand_delivers : Delivers walks nand := by
  refine .bind twoArguments_plain fun (v, w) => ?_
  simp only
  split
  case h_1 => exact .deliver
  case h_2 => exact .bind write_plain fun _ => .bind write_plain fun _ => .throw rfl

theorem exit_delivers : Delivers walks exit := by
  refine .bind oneArgument_plain fun v => ?_
  split
  case h_1 =>
    split
    case h_1 => exact .throw rfl
    case h_2 => exact .throw rfl
  case h_2 => exact .bind display_plain fun _ => .throw rfl

theorem range_delivers : Delivers walks range := by
  refine .bind threeArguments_plain fun vs => ?_
  split
  case h_1 =>
    split
    case isTrue => exact .throw rfl
    case isFalse => exact (store_plain progression_obeys).delivers
  case h_2 => exact .throw rfl

-- The one of them that walks is the comparison of structures.
theorem run_delivers {b : Builtin} (h : b.isNative) : Delivers (b = .equal) b.run := by
  cases b <;> try cases h
  case lambda =>
    exact .bind argl_plain fun _ => .bind atLeastTwo_plain fun _ =>
      makeClosure_plain.delivers
  case quote => exact .bind argl_plain fun _ => single_plain.delivers
  case cons => exact .bind twoArguments_plain fun _ => cons_plain.delivers
  case car =>
    exact .bind oneArgument_plain fun _ =>
      (queryOrFail_plain fun _ => Store.carOf_proper).delivers
  case cdr =>
    exact .bind oneArgument_plain fun _ =>
      (queryOrFail_plain fun _ => Store.cdrOf_proper).delivers
  case setCar =>
    exact .bind twoArguments_plain fun _ => .bind pairArgument_plain fun _ =>
      .bind (update_plain fun _ => Store.setCar_evolves) fun _ => .deliver
  case setCdr =>
    exact .bind twoArguments_plain fun _ => .bind pairArgument_plain fun _ =>
      .bind (update_plain fun _ => Store.setCdr_evolves) fun _ => .deliver
  case isNull | isAtom | type => exact .bind oneArgument_plain fun _ => .deliver
  case eq => exact .bind twoArguments_plain fun _ => .deliver
  case equal =>
    exact .bind twoArguments_plain fun _ =>
      .bind (queryOrFail_plain fun _ => Store.equal_proper.imp fun _ => rfl) fun _ => .deliver
  case add | mul | div => exact .bind twoArguments_plain fun _ => numeric_plain.delivers
  case sub => exact minus_delivers
  case lt => exact .bind twoArguments_plain fun _ => .bind less_plain fun _ => .deliver
  case nand => exact nand_delivers
  case error =>
    exact .bind oneArgument_plain fun _ => .bind display_plain fun _ => .throw rfl
  case exit => exact exit_delivers
  case print =>
    exact .bind arguments_plain fun _ =>
      .bind (Plain.mapM (fun _ => display_plain) _) fun _ =>
        .bind emit_plain fun _ => .deliver
  case toText =>
    exact .bind oneArgument_plain fun _ => .bind write_plain fun _ =>
      (store_plain Store.allocString_obeys).delivers
  case range => exact range_delivers

end Machine
end StepLisp
