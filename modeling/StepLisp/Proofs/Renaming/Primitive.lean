import StepLisp.Machine.Primitive
import StepLisp.Proofs.Renaming.Operation

namespace StepLisp

open Act

variable {exact : Prop} {ρ : Renaming} {v v' w w' : Value} {vs vs' : List Value}
variable {α : Type} {A : Renaming → α → α → Prop}

namespace Machine

-- Arguments

theorem arguments_steady {b : Builtin} :
    Steady (likeness exact) ρ (arguments b) (arguments b) (List.Forall₂ (Value.Alike ρ)) := by
  refine argl_steady.steady_bind fun _ _ ha => (toList?_steady ha).steady_bind fun _ _ hv => ?_
  cases hv
  case none => exact .throw rfl
  case some hv => exact .pure hv

theorem wrongArity_respects {b : Builtin} {n : Nat} (h : List.Forall₂ (Value.Alike ρ) vs vs') :
    Respects (likeness exact) ρ (wrongArity b n vs) (wrongArity b n vs') A := by
  unfold wrongArity
  rw [h.length_eq]
  exact .throw rfl

theorem oneArgument_steady {b : Builtin} :
    Steady (likeness exact) ρ (oneArgument b) (oneArgument b) (Value.Alike ρ) := by
  refine arguments_steady.steady_bind fun vs vs' hv => ?_
  rcases hv with _ | ⟨h, _ | ⟨h', hv⟩⟩
  · exact wrongArity_respects .nil
  · exact .pure h
  · exact wrongArity_respects <| .cons h <| .cons h' hv

theorem twoArguments_steady {b : Builtin} :
    Steady (likeness exact) ρ (twoArguments b) (twoArguments b)
      fun p p' => p.1.Alike ρ p'.1 ∧ p.2.Alike ρ p'.2 := by
  refine arguments_steady.steady_bind fun vs vs' hv => ?_
  rcases hv with _ | ⟨h₁, _ | ⟨h₂, _ | ⟨h₃, hv⟩⟩⟩
  · exact wrongArity_respects .nil
  · exact wrongArity_respects <| .cons h₁ .nil
  · exact .pure ⟨h₁, h₂⟩
  · exact wrongArity_respects <| .cons h₁ <| .cons h₂ <| .cons h₃ hv

theorem threeArguments_steady {b : Builtin} :
    Steady (likeness exact) ρ (threeArguments b) (threeArguments b)
      fun p p' => p.1.Alike ρ p'.1 ∧ p.2.1.Alike ρ p'.2.1 ∧ p.2.2.Alike ρ p'.2.2 := by
  refine arguments_steady.steady_bind fun vs vs' hv => ?_
  rcases hv with _ | ⟨h₁, _ | ⟨h₂, _ | ⟨h₃, _ | ⟨h₄, hv⟩⟩⟩⟩
  · exact wrongArity_respects .nil
  · exact wrongArity_respects <| .cons h₁ .nil
  · exact wrongArity_respects <| .cons h₁ <| .cons h₂ .nil
  · exact .pure ⟨h₁, h₂, h₃⟩
  · exact wrongArity_respects <| .cons h₁ <| .cons h₂ <| .cons h₃ <| .cons h₄ hv

theorem looseArguments_steady :
    Steady (likeness exact) ρ looseArguments looseArguments (List.Forall₂ (Value.Alike ρ)) := by
  refine argl_steady.steady_bind fun _ _ ha => (toList?_steady ha).steady_bind fun _ _ hv => ?_
  cases hv
  case none => exact .pure .nil
  case some hv => exact .pure hv

-- Pairs and predicates

theorem cons_respects : Respects (likeness exact) ρ cons cons Step.Alike :=
  twoArguments_steady.bind fun _ _ ⟨ha, hb⟩ =>
    (onStore_respects <| Store.cons_respects ha hb).bind fun _ _ _ _ hv => deliver_respects hv

theorem car_respects : Respects (likeness exact) ρ car car Step.Alike :=
  oneArgument_steady.bind fun _ _ hv =>
    (queryOrFail_steady fun _ _ h => h.carOf hv).bind fun _ _ hw => deliver_respects hw

theorem cdr_respects : Respects (likeness exact) ρ cdr cdr Step.Alike :=
  oneArgument_steady.bind fun _ _ hv =>
    (queryOrFail_steady fun _ _ h => h.cdrOf hv).bind fun _ _ hw => deliver_respects hw

theorem pairArgument_steady {b : Builtin} (hv : v.Alike ρ v') :
    Steady (likeness exact) ρ (pairArgument b v) (pairArgument b v') fun i i' =>
      ρ i.ref i'.ref := by
  have ht := hv
  cases hv
  case pair hi => exact .pure hi
  all_goals exact write_bind ht fun _ => .throw rfl

theorem update_steady {f f' : Store → Store}
    (h : ∀ s s', s.Alike exact ρ s' → (f s).Alike exact ρ (f' s')) :
    Steady (likeness exact) ρ (update f) (update f') fun _ _ => True :=
  fun _ _ hm => .ok (le_refl ρ) (hm.setStore (le_refl ρ) <| h _ _ hm.image.store) ⟨rfl, trivial⟩

theorem setCar_respects : Respects (likeness exact) ρ setCar setCar Step.Alike :=
  twoArguments_steady.bind fun _ _ ⟨hp, hv⟩ => (pairArgument_steady hp).bind fun _ _ hi =>
    (update_steady fun _ _ h => h.setCar hi hv).bind fun _ _ _ => deliver_respects .nil

theorem setCdr_respects : Respects (likeness exact) ρ setCdr setCdr Step.Alike :=
  twoArguments_steady.bind fun _ _ ⟨hp, hv⟩ => (pairArgument_steady hp).bind fun _ _ hi =>
    (update_steady fun _ _ h => h.setCdr hi hv).bind fun _ _ _ => deliver_respects .nil

theorem isNull_respects : Respects (likeness exact) ρ isNull isNull Step.Alike :=
  oneArgument_steady.bind fun _ _ hv => deliver_respects <| hv.isNil_eq ▸ .ofBool _

theorem isAtom_respects : Respects (likeness exact) ρ isAtom isAtom Step.Alike :=
  oneArgument_steady.bind fun _ _ hv => deliver_respects <| by
    rw [Value.isAtom, Value.isAtom, hv.isPair_eq]
    exact .ofBool _

theorem eq_respects : Respects (likeness exact) ρ eq eq Step.Alike := by
  refine twoArguments_steady.bind fun _ _ ⟨ha, hb⟩ m m' hm => ?_
  have he := ha.beq_eq hb hm.image.store.injective
  exact deliver_respects (he ▸ .ofBool _) m m' hm

theorem equal_respects : Respects (likeness exact) ρ equal equal Step.Alike :=
  twoArguments_steady.bind fun _ _ ⟨ha, hb⟩ =>
    (queryOrFail_steady fun _ _ h => h.equal_matches ha hb).bind fun _ _ he =>
      deliver_respects <| he ▸ .ofBool _

-- Arithmetic

theorem arithmetic_steady {x : Except Arithmetic α} :
    Steady (likeness exact) ρ (arithmetic x) (arithmetic x) Eq := by
  cases x
  case ok => exact .pure rfl
  case error => exact .throw rfl

-- Two values that are to be numbers, and are written in a complaint if they are not.
theorem numbers_steady {f : Float → Float → Run α} {c : String → String → Mistyped}
    {R : α → α → Prop} (hv : v.Alike ρ v') (hw : w.Alike ρ w')
    (hf : ∀ x y, Steady (likeness exact) ρ (f x y) (f x y) R) :
    Steady (likeness exact) ρ
      (match v.number?, w.number? with
        | some x, some y => f x y
        | _, _ => do mistyped (c (← write v) (← write w)))
      (match v'.number?, w'.number? with
        | some x, some y => f x y
        | _, _ => do mistyped (c (← write v') (← write w'))) R := by
  rw [hv.number?_eq, hw.number?_eq]
  split
  case h_1 => exact hf _ _
  case h_2 => exact write_bind hv fun _ => write_bind hw fun _ => .throw rfl

theorem numeric_steady {b : Builtin} {op : Operation} (hv : v.Alike ρ v') (hw : w.Alike ρ w') :
    Steady (likeness exact) ρ (numeric b op v w) (numeric b op v' w') (Value.Alike ρ) := by
  have hx (x y : Float) : Steady (likeness exact) ρ
      (do return Value.float (← arithmetic (op.floats x y)))
      (do return Value.float (← arithmetic (op.floats x y))) (Value.Alike ρ) :=
    arithmetic_steady.steady_bind fun z _ hz => hz ▸ .pure (.float z)
  have hf := numbers_steady (c := .notNumbers b.name) hv hw hx
  cases hv
  case int =>
    cases hw
    case int => exact arithmetic_steady.steady_bind fun n _ hn => hn ▸ .pure (.int n)
    all_goals exact hf
  all_goals exact hf

theorem binary_respects {b : Builtin} {op : Operation} :
    Respects (likeness exact) ρ (binary b op) (binary b op) Step.Alike :=
  twoArguments_steady.bind fun _ _ ⟨hv, hw⟩ =>
    (numeric_steady hv hw).bind fun _ _ h => deliver_respects h

theorem minus_respects : Respects (likeness exact) ρ minus minus Step.Alike := by
  refine looseArguments_steady.bind fun vs vs' hv => ?_
  rcases hv with _ | ⟨h₁, _ | ⟨h₂, _ | ⟨h₃, hv⟩⟩⟩
  · exact .throw rfl
  · have h := h₁
    cases h₁
    case float => exact deliver_respects <| .float _
    all_goals exact (numeric_steady (.int 0) h).bind fun _ _ h => deliver_respects h
  · have h := h₁
    cases h₁ <;> exact (numeric_steady h h₂).bind fun _ _ h => deliver_respects h
  · cases h₁ <;> exact .throw rfl

theorem string_steady {i i' : StringId} (hi : ρ i.ref i'.ref) :
    Steady (likeness exact) ρ (queryOrFail (·.string i)) (queryOrFail (·.string i')) Eq := by
  refine queryOrFail_steady fun s s' h => ?_
  have ⟨text, ht, ht'⟩ := h.string hi
  rw [ht, ht']
  exact .ok rfl

theorem less_steady (hv : v.Alike ρ v') (hw : w.Alike ρ w') :
    Steady (likeness exact) ρ (less v w) (less v' w') Eq := by
  have hx (x y : Float) : Steady (likeness exact) ρ (pure (decide (x < y)))
      (pure (decide (x < y))) Eq := .pure rfl
  have numbers := numbers_steady (c := .notComparable) hv hw hx
  cases hv
  case int =>
    cases hw
    case int => exact .pure rfl
    all_goals exact numbers
  case string hi =>
    cases hw
    case string hj =>
      exact (string_steady hi).steady_bind fun a _ ha => (string_steady hj).steady_bind
        fun b _ hb => ha ▸ hb ▸ .pure rfl
    all_goals exact numbers
  all_goals exact numbers

theorem lt_respects : Respects (likeness exact) ρ lt lt Step.Alike :=
  twoArguments_steady.bind fun _ _ ⟨hv, hw⟩ =>
    (less_steady hv hw).bind fun _ _ h => deliver_respects <| h ▸ .ofBool _

theorem nand_respects : Respects (likeness exact) ρ nand nand Step.Alike := by
  refine twoArguments_steady.bind fun ⟨v, w⟩ ⟨v', w'⟩ ⟨hv, hw⟩ => ?_
  have other : Respects (likeness exact) ρ
      (do mistyped (.notIntegers (← write v) (← write w)))
      (do mistyped (.notIntegers (← write v') (← write w'))) Step.Alike :=
    write_bind hv fun _ => write_bind hw fun _ => .throw rfl
  cases hv
  case int =>
    cases hw
    case int => exact deliver_respects <| .int _
    all_goals exact other
  all_goals exact other

-- Control

theorem apply_respects : Respects (likeness exact) ρ apply apply Step.Alike := by
  refine twoArguments_steady.bind fun ⟨proc, list⟩ ⟨proc', list'⟩ ⟨hp, hl⟩ => ?_
  refine .ite (by rw [hp.isProcedure_eq]) (write_bind hp fun _ => .throw rfl) ?_
  refine .ite (by rw [hl.isListLike_eq]) (write_bind hl fun _ => .throw rfl) ?_
  exact applyTo_respects hl hp

theorem getLastD_alike (h : List.Forall₂ (Value.Alike ρ) vs vs') (hv : v.Alike ρ v') :
    (vs.getLastD v).Alike ρ (vs'.getLastD v') := by
  induction h generalizing v v'
  case nil => exact hv
  case cons h _ hi =>
    rw [List.getLastD_cons, List.getLastD_cons]
    exact hi h

theorem expression_respects (hv : v.Alike ρ v') :
    Respects (likeness exact) ρ (expression v) (expression v') Value.Alike := by
  have hp := hv
  cases hv
  case string hi =>
    refine (string_steady hi).bind fun text _ ht => ?_
    cases ht
    exact (onImage_respects Image.readAll_respects).bind fun _ _ _ _ hv =>
      .pure <| getLastD_alike hv .nil
  all_goals exact .pure hp

theorem evaluateUp_respects {n : Nat} (hv : v.Alike ρ v') :
    Respects (likeness exact) ρ (evaluateUp v n) (evaluateUp v' n) Step.Alike :=
  (expression_respects hv).bind fun _ _ _ _ hv => env_steady.bind fun _ _ he =>
    (queryOrFail_steady fun _ _ h => h.ancestor he).bind fun _ _ he =>
      (setEnv_steady he).bind fun _ _ _ => evaluate_respects hv

theorem evalValue_respects : Respects (likeness exact) ρ evalValue evalValue Step.Alike := by
  refine looseArguments_steady.bind fun vs vs' hv => ?_
  rcases hv with _ | ⟨h₁, _ | ⟨h₂, _ | ⟨h₃, hv⟩⟩⟩
  · exact .throw rfl
  · exact evaluateUp_respects h₁
  · have h := h₂
    cases h₂
    case int => exact .ite .rfl (evaluateUp_respects h₁) (write_bind h fun _ => .throw rfl)
    all_goals exact write_bind h fun _ => .throw rfl
  · cases h₂ <;> exact .throw rfl

theorem error_respects : Respects (likeness exact) ρ error error Step.Alike :=
  oneArgument_steady.bind fun _ _ hv => (display_steady hv).bind fun _ _ ht => ht ▸ .throw rfl

theorem exit_respects : Respects (likeness exact) ρ exit exit Step.Alike := by
  refine oneArgument_steady.bind fun v v' hv => ?_
  have h := hv
  cases hv
  case int n =>
    simp only
    split
    case h_1 => exact .throw rfl
    case h_2 => exact .throw rfl
  all_goals exact (display_steady h).bind fun _ _ ht => ht ▸ .throw rfl

-- Others

theorem emit_steady {text : String} :
    Steady (likeness exact) ρ (emit text) (emit text) fun _ _ => True := by
  intro m m' hm
  simp only [emit, ← hm.output]
  rcases m.output.write text with ⟨_ | _, output⟩
  · exact .fault (le_refl ρ) (.refl rfl) { hm with output := rfl }
  · exact .ok (le_refl ρ) { hm with output := rfl } ⟨rfl, trivial⟩

theorem print_respects : Respects (likeness exact) ρ print print Step.Alike := by
  refine arguments_steady.bind fun vs vs' hv => ?_
  refine (Steady.mapM hv fun _ _ => display_steady).bind fun texts texts' ht => ?_
  cases List.forall₂_eq_eq_eq ▸ ht
  exact emit_steady.bind fun _ _ _ => deliver_respects .nil

theorem toText_respects : Respects (likeness exact) ρ toText toText Step.Alike :=
  oneArgument_steady.bind fun _ _ hv => write_bind hv fun _ =>
    (onStore_respects Store.allocString_respects).bind fun _ _ _ _ ht => deliver_respects ht

theorem extend_respects {stop step term : Int64} {last last' : PairId}
    (h : ρ last.ref last'.ref) : Respects (Store.likeness exact) ρ (extend stop step term last)
      (extend stop step term last') fun _ _ _ => True := by
  induction term using terms_induction stop step generalizing ρ last last'
  case more term next hn hp hi =>
    rw [extend_of_precedes hn hp, extend_of_precedes hn hp]
    refine (Store.alloc_respects (.int _) .nil).bind fun τ i i' hρ hi' => ?_
    refine Steady.bind (A := fun _ _ => True) (fun s s' hs => ?_) fun _ _ _ => hi hi'
    exact .ok (le_refl τ) (Store.Alike.setCdr hs (hρ _ _ h) (.pair hi')) ⟨rfl, trivial⟩
  case last term hl =>
    rw [extend_of_last hl, extend_of_last hl]
    exact .pure trivial

theorem progression_respects {start stop step : Int64} :
    Respects (Store.likeness exact) ρ (progression start stop step) (progression start stop step)
      Value.Alike := by
  refine .ite .rfl ?_ (.pure .nil)
  exact (Store.alloc_respects (.int _) .nil).bind fun _ _ _ _ hi =>
    (extend_respects hi).bind fun _ _ _ hρ _ => .pure <| .pair <| hρ _ _ hi

theorem range_respects : Respects (likeness exact) ρ range range Step.Alike := by
  refine threeArguments_steady.bind fun ⟨u, v, w⟩ ⟨u', v', w'⟩ ⟨hu, hv, hw⟩ => ?_
  cases hu
  case int =>
    cases hv
    case int =>
      cases hw
      case int =>
        exact .ite .rfl (.throw rfl) <|
          (onStore_respects progression_respects).bind fun _ _ _ _ hl =>
          deliver_respects hl
      all_goals exact .throw rfl
    all_goals exact .throw rfl
  all_goals exact .throw rfl

theorem type_respects : Respects (likeness exact) ρ type type Step.Alike :=
  oneArgument_steady.bind fun _ _ hv => deliver_respects <| hv.type_eq ▸ .symbol _

end Machine
end StepLisp
