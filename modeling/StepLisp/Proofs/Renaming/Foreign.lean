import StepLisp.Proofs.Renaming.Operation

namespace StepLisp

open Act

variable {exact : Prop} {ρ : Renaming} {v v' : Value} {vs vs' : List Value}
variable {α : Type} {A : Renaming → α → α → Prop}

namespace Machine

theorem getD_alike {i : Nat} (h : List.Forall₂ (Value.Alike ρ) vs vs')
    (hv : v.Alike ρ v') : (vs.getD i v).Alike ρ (vs'.getD i v') := by
  induction h generalizing i
  case nil => exact hv
  case cons h _ hi =>
    cases i
    case zero => exact h
    case succ => exact hi

theorem foreignArity_steady {function : String} {n : Nat}
    (h : List.Forall₂ (Value.Alike ρ) vs vs') :
    Steady (likeness exact) ρ (foreignArity function n vs) (foreignArity function n vs')
      fun _ _ => True := by
  unfold foreignArity
  rw [h.length_eq]
  exact .ite .rfl (.pure ⟨rfl, trivial⟩) (.throw rfl)

theorem numberArg_steady {function : String} (hv : v.Alike ρ v') :
    Steady (likeness exact) ρ (numberArg function v) (numberArg function v') Eq := by
  unfold numberArg
  rw [hv.number?_eq]
  cases v.number?
  case none => exact .throw rfl
  case some => exact .pure rfl

theorem integerArg_steady {function : String} (hv : v.Alike ρ v') :
    Steady (likeness exact) ρ (integerArg function v) (integerArg function v') Eq := by
  unfold integerArg
  rw [hv.int?_eq]
  cases v.int?
  case none => exact .throw rfl
  case some => exact .pure rfl

theorem listArg_steady {function : String} (hv : v.Alike ρ v') :
    Steady (likeness exact) ρ (listArg function v) (listArg function v')
      (List.Forall₂ (Value.Alike ρ)) := by
  refine (toList?_steady hv).steady_bind fun items items' hi => ?_
  cases hi
  case none => exact .throw rfl
  case some hi => exact .pure hi

namespace Math

theorem checked_steady {inputs : List Float} {x : Float} :
    Steady (likeness exact) ρ (checked inputs x) (checked inputs x) (Value.Alike ρ) :=
  .ite .rfl (.throw rfl) <| .pure ⟨rfl, .float x⟩

theorem log_steady {x : Float} {base : Option Float} :
    Steady (likeness exact) ρ (log x base) (log x base) (Value.Alike ρ) := by
  refine .ite .rfl (.throw rfl) ?_
  cases base
  case none => exact .pure ⟨rfl, .float _⟩
  case some => exact .ite .rfl (.throw rfl) <| .pure ⟨rfl, .float _⟩

theorem rounded_steady {round : Binary64 → Option Int} {x : Float} :
    Steady (likeness exact) ρ (rounded round x) (rounded round x) (Value.Alike ρ) := by
  unfold rounded
  simp only
  split
  case h_1 n _ => exact .pure <| .int n
  case h_2 => exact .throw rfl

theorem call_steady {function : String} (h : List.Forall₂ (Value.Alike ρ) vs vs') :
    Steady (likeness exact) ρ (call function vs) (call function vs') (Value.Alike ρ) := by
  unfold call
  split
  case h_1 =>
    refine (foreignArity_steady h).steady_bind fun _ _ _ =>
      (numberArg_steady <| getD_alike h .nil).steady_bind fun x _ hx => ?_
    cases hx
    exact .ite .rfl (.throw rfl) checked_steady
  case h_2 =>
    split
    case h_1 =>
      refine (foreignArity_steady h).steady_bind fun _ _ _ =>
        (numberArg_steady <| getD_alike h .nil).steady_bind fun x _ hx =>
          (numberArg_steady <| getD_alike h .nil).steady_bind fun y _ hy => ?_
      cases hx
      cases hy
      exact checked_steady
    case h_2 =>
      split
      case h_1 =>
        refine (foreignArity_steady h).steady_bind fun _ _ _ => ?_
        have hv := getD_alike (i := 0) h .nil
        generalize vs.getD 0 .nil = v, vs'.getD 0 .nil = v' at hv
        have ha := hv
        cases hv
        case int n => exact .pure <| .int n
        all_goals exact (numberArg_steady ha).steady_bind fun _ _ hx => hx ▸ rounded_steady
      case h_2 =>
        refine .ite .rfl ?_ (.throw rfl)
        rcases h with _ | ⟨h₁, _ | ⟨h₂, _ | ⟨h₃, h⟩⟩⟩
        · exact .throw rfl
        · exact (numberArg_steady h₁).steady_bind fun _ _ hx => hx ▸ log_steady
        · exact (numberArg_steady h₁).steady_bind fun _ _ hx =>
            (numberArg_steady h₂).steady_bind fun _ _ hb => hx ▸ hb ▸ log_steady
        · exact .throw rfl

end Math

namespace Chance

theorem arrange_forall₂ {R : α → α → Prop} {n : Nat} {a : Arrangement n} {items items' : List α}
    (h : List.Forall₂ R items items') :
    List.Forall₂ R (a.arrange items) (a.arrange items') := by
  have hr (i : Nat) : Option.Rel R items[i]? items'[i]? := by
    induction h generalizing i
    case nil => exact .none
    case cons h _ hi =>
      cases i
      case zero => exact .some h
      case succ i => exact hi i
  unfold Arrangement.arrange
  induction a.places
  case nil => exact .nil
  case cons i places hi =>
    simp only [List.filterMap_cons]
    have hr := hr i
    generalize items[i]? = o, items'[i]? = o' at hr
    cases hr
    case none => exact hi
    case some h => exact .cons h hi

theorem shuffle_forall₂ {R : α → α → Prop} {g : Generator} {items items' : List α}
    (h : List.Forall₂ R items items') :
    List.Forall₂ R (g.shuffle items).1 (g.shuffle items').1 ∧
      (g.shuffle items).2 = (g.shuffle items').2 := by
  simp only [Generator.shuffle]
  rw [h.length_eq]
  exact ⟨arrange_forall₂ h, rfl⟩

theorem draw_steady {R : α → α → Prop} {f f' : Generator → α × Generator}
    (h : ∀ g, R (f g).1 (f' g).1 ∧ (f g).2 = (f' g).2) :
    Steady (likeness exact) ρ (draw f) (draw f') R := by
  intro m m' hm
  have ⟨ha, hg⟩ := h m.generator
  refine .ok (le_refl ρ) { hm with generator := ?_ } ⟨rfl, ?_⟩
  · exact hm.generator ▸ hg
  · exact hm.generator ▸ ha

-- Cells of a list take new elements one by one.
theorem setCars_alike {s s' : Store} (h : s.Alike exact ρ s') (hv : v.Alike ρ v')
    (hi : List.Forall₂ (Value.Alike ρ) vs vs') :
    (s.setCars v vs).Alike exact ρ (s'.setCars v' vs') := by
  induction hi generalizing s s' v v' <;> cases hv
  case cons.pair hw _ hn _ _ hp => exact hn (h.setCar hp hw) (h.cdr hp)
  all_goals exact h

theorem setCars_steady (hv : v.Alike ρ v') (hi : List.Forall₂ (Value.Alike ρ) vs vs') :
    Steady (likeness exact) ρ (setCars v vs) (setCars v' vs') fun _ _ => True :=
  fun _ _ hm => .ok (le_refl ρ)
    (hm.setStore (le_refl ρ) <| setCars_alike hm.image.store hv hi) ⟨rfl, trivial⟩

theorem randint_steady {low high : Int64} :
    Steady (likeness exact) ρ (randint low high) (randint low high) (Value.Alike ρ) :=
  .ite .rfl (.throw rfl) <| (draw_steady (R := Eq) fun _ => ⟨rfl, rfl⟩).steady_bind
    fun _ _ hn => hn ▸ .pure (.int _)

theorem choice_steady (h : List.Forall₂ (Value.Alike ρ) vs vs') :
    Steady (likeness exact) ρ (choice vs) (choice vs') (Value.Alike ρ) := by
  have hd := h
  cases h
  case nil => exact .throw rfl
  case cons h hs =>
    simp only [choice]
    rw [hs.length_eq]
    exact (draw_steady (R := Eq) fun _ => ⟨rfl, rfl⟩).steady_bind fun _ _ hi =>
      hi ▸ .pure (getD_alike hd h)

theorem shuffle_steady (hv : v.Alike ρ v') (h : List.Forall₂ (Value.Alike ρ) vs vs') :
    Steady (likeness exact) ρ (shuffle v vs) (shuffle v' vs') (Value.Alike ρ) :=
  (draw_steady fun _ => shuffle_forall₂ h).steady_bind fun _ _ hi =>
    (setCars_steady hv hi).steady_bind fun _ _ _ => .pure hv

theorem call_steady {function : String} (h : List.Forall₂ (Value.Alike ρ) vs vs') :
    Steady (likeness exact) ρ (call function vs) (call function vs') (Value.Alike ρ) := by
  have hu : Steady (likeness exact) ρ (draw (·.unit)) (draw (·.unit)) Eq :=
    draw_steady fun _ => ⟨rfl, rfl⟩
  unfold call
  simp only
  split
  case h_1 =>
    exact (foreignArity_steady h).steady_bind fun _ _ _ => hu.steady_bind fun _ _ hx =>
      hx ▸ .pure (.float _)
  case h_2 =>
    exact (foreignArity_steady h).steady_bind fun _ _ _ =>
      (integerArg_steady <| getD_alike h .nil).steady_bind fun _ _ hl =>
        (integerArg_steady <| getD_alike h .nil).steady_bind fun _ _ hh => hl ▸ hh ▸ randint_steady
  case h_3 =>
    exact (foreignArity_steady h).steady_bind fun _ _ _ =>
      (numberArg_steady <| getD_alike h .nil).steady_bind fun _ _ ha =>
        (numberArg_steady <| getD_alike h .nil).steady_bind fun _ _ hb =>
          hu.steady_bind fun _ _ hx => ha ▸ hb ▸ hx ▸ .pure (.float _)
  case h_4 =>
    exact (foreignArity_steady h).steady_bind fun _ _ _ =>
      (listArg_steady <| getD_alike h .nil).steady_bind fun _ _ hi => choice_steady hi
  case h_5 =>
    refine (foreignArity_steady h).steady_bind fun _ _ _ =>
      (integerArg_steady <| getD_alike h .nil).steady_bind fun _ _ hn => ?_
    exact draw_steady fun _ => ⟨.nil, by rw [hn]⟩
  case h_6 =>
    exact (foreignArity_steady h).steady_bind fun _ _ _ =>
      (listArg_steady <| getD_alike h .nil).steady_bind fun _ _ hi =>
        shuffle_steady (getD_alike h .nil) hi
  case h_7 => exact .throw rfl

end Chance

namespace Time

theorem read_steady {f : Clock → α × Clock} :
    Steady (likeness exact) ρ (read f) (read f) Eq := by
  intro m m' hm
  simp only [read, hm.clock]
  exact .ok (le_refl ρ) { hm with clock := rfl } ⟨rfl, rfl⟩

theorem sleep_steady {seconds : Float} :
    Steady (likeness exact) ρ (sleep seconds) (sleep seconds) (Value.Alike ρ) := by
  refine .ite .rfl (.throw rfl) ?_
  split
  case h_1 => exact .throw rfl
  case h_2 =>
    intro m m' hm
    exact .ok (le_refl ρ) { hm with clock := by rw [hm.clock] } ⟨rfl, .nil⟩

theorem elapsed_steady (hv : v.Alike ρ v') :
    Steady (likeness exact) ρ (elapsed v) (elapsed v') (Value.Alike ρ) := by
  cases hv
  case foreign i i' hi =>
    have hf : Steady (likeness exact) ρ (queryOrFail (·.foreign i))
        (queryOrFail (·.foreign i')) Eq := by
      refine queryOrFail_steady fun s s' h => ?_
      have ⟨f, hf, hf'⟩ := h.foreign hi
      rw [hf, hf']
      exact .ok rfl
    refine hf.steady_bind fun f _ hf => ?_
    cases hf
    cases f
    exact read_steady.steady_bind fun _ _ ht => ht ▸ .pure (.float _)
  all_goals exact .throw rfl

theorem breakDown_respects {t : Int} :
    Respects (likeness exact) ρ (breakDown t) (breakDown t) Value.Alike := by
  unfold breakDown
  split
  case h_1 =>
    refine onStore_respects <| Store.list_respects ?_
    rw [List.forall₂_map_left_iff, List.forall₂_map_right_iff]
    exact List.forall₂_same.mpr fun n _ => .int _
  case h_2 => exact .throw rfl

theorem timegm_steady {function : String} (h : List.Forall₂ (Value.Alike ρ) vs vs') :
    Steady (likeness exact) ρ (timegm function vs) (timegm function vs') (Value.Alike ρ) := by
  have hm : Steady (likeness exact) ρ ((vs.take 6).mapM (integerArg function))
      ((vs'.take 6).mapM (integerArg function)) Eq := by
    rw [← List.forall₂_eq_eq_eq]
    exact Steady.mapM (List.forall₂_take 6 h) fun _ _ => integerArg_steady
  refine .ite (by rw [h.length_eq]) (hm.steady_bind fun fields _ hf => ?_) ?_
  · cases hf
    split
    case h_1 =>
      split
      case h_1 => exact .pure <| .int _
      case h_2 => exact .throw rfl
    case h_2 => exact .throw rfl
  · rw [h.length_eq]
    exact .throw rfl

theorem call_respects {function : String} (h : List.Forall₂ (Value.Alike ρ) vs vs') :
    Respects (likeness exact) ρ (call function vs) (call function vs') Value.Alike := by
  unfold call
  simp only
  split
  case h_1 =>
    exact (foreignArity_steady h).bind fun _ _ _ => read_steady.bind fun _ _ ht =>
      ht ▸ .pure (.float _)
  case h_2 =>
    exact (foreignArity_steady h).bind fun _ _ _ => read_steady.bind fun _ _ ht =>
      ht ▸ .pure (.float _)
  case h_3 =>
    exact (foreignArity_steady h).bind fun _ _ _ =>
      (numberArg_steady <| getD_alike h .nil).bind fun _ _ hx => hx ▸
        sleep_steady.respects fun _ _ => id
  case h_4 =>
    exact (foreignArity_steady h).bind fun _ _ _ => read_steady.bind fun _ _ ht =>
      ht ▸ onStore_respects Store.allocForeign_respects
  case h_5 =>
    exact (foreignArity_steady h).bind fun _ _ _ =>
      (elapsed_steady <| getD_alike h .nil).respects fun _ _ => id
  case h_6 =>
    rcases h with _ | ⟨h₁, _ | ⟨h₂, h⟩⟩
    · exact read_steady.bind fun _ _ ht => ht ▸ breakDown_respects
    · exact (numberArg_steady h₁).bind fun _ _ hx => hx ▸ breakDown_respects
    · exact .throw rfl
  case h_7 =>
    exact (foreignArity_steady h).bind fun _ _ _ =>
      (listArg_steady <| getD_alike h .nil).bind fun _ _ hi =>
        (timegm_steady hi).respects fun _ _ => id
  case h_8 => exact .throw rfl

end Time

theorem callForeign_respects {i : GroupId} {function : Symbol} (hv : v.Alike ρ v') :
    Respects (likeness exact) ρ (callForeign i function v) (callForeign i function v')
      Value.Alike := by
  refine (toList?_steady hv).bind fun items items' hi => ?_
  cases hi
  case none => exact .throw rfl
  case some hi =>
    have hg : Steady (likeness exact) ρ (group i) (group i) Eq := by
      unfold group
      split
      case h_1 => exact .pure rfl
      case h_2 => exact .throw rfl
    refine hg.bind fun g _ hg => get_respects fun m m' hm => ?_
    cases hg
    rw [hm.image.symbols]
    cases g
    case math => exact (Math.call_steady hi).respects fun _ _ => id
    case random => exact (Chance.call_steady hi).respects fun _ _ => id
    case time => exact Time.call_respects hi

end Machine
end StepLisp
