import StepLisp.Proofs.Renaming.Observe

namespace StepLisp

open Act

variable {exact : Prop} {ρ : Renaming} {v v' : Value} {α : Type}

namespace Image

def likeness (exact : Prop) : Likeness Image where
  exact := exact
  lenient := False
  alike := Alike exact
  idle _ _ _ := False

variable {L : Likeness Image}

theorem onStore_respects {x x' : Act Store α} {A : Renaming → α → α → Prop}
    (h : Respects (Store.likeness exact) ρ x x' A) :
    Respects (likeness exact) ρ (liftM x) (liftM x') A := by
  rintro ⟨s, symbols⟩ ⟨s', _⟩ ⟨hs, rfl⟩
  have hr := h s s' hs
  rw [show (liftM x : Act Image α) = onStore x from rfl,
    show (liftM x' : Act Image α) = onStore x' from rfl]
  simp only [onStore]
  generalize x s = r, x' s' = r' at hr
  cases hr
  case ok hρ hs ha => exact .ok hρ ⟨hs, rfl⟩ ha
  case fault hρ hf hs => exact .fault hρ hf ⟨hs, rfl⟩
  case fatal h => exact h.elim
  case exhausted h => exact .exhausted h
  case exhausted' h => exact .exhausted' h

theorem onStore_steady {x x' : Act Store α} {A : α → α → Prop}
    (h : Steady (Store.likeness exact) ρ x x' A) :
    Steady (likeness exact) ρ (liftM x) (liftM x') A :=
  onStore_respects h

theorem intern_steady {name : String} :
    Steady (likeness exact) ρ (intern name) (intern name) Eq := by
  rintro ⟨s, symbols⟩ ⟨s', _⟩ ⟨hs, rfl⟩
  exact .ok (le_refl ρ) ⟨hs, rfl⟩ ⟨rfl, rfl⟩

theorem assign_steady {e e' : FrameId} {x : Symbol} (he : ρ e.ref e'.ref) (hv : v.Alike ρ v') :
    Steady (likeness exact) ρ (assign e x v) (assign e' x v') fun _ _ => True := by
  intro image image' h
  have hb := h.store.binder? (x := x) he
  refine Steady.steady_bind (Steady.ofMatches hb) (fun binder binder' hb => ?_) image image' h
  cases hb
  case some hb => exact onStore_steady <| Store.define_steady hb hv
  case none => exact h.symbols ▸ .throw rfl

theorem buildOn_respects {d : Datum} {seen seen' : List Value}
    (hs : List.Forall₂ (Value.Alike ρ) seen seen') :
    Respects (likeness exact) ρ (buildOn seen d) (buildOn seen' d) Value.Alike := by
  have atom {ρ} {seen seen' : List Value} {v} (hs : List.Forall₂ (Value.Alike ρ) seen seen')
      (hv : v.Alike ρ v) : Respects (likeness exact) ρ (liftM (Store.consAll seen v))
        (liftM (Store.consAll seen' v)) Value.Alike :=
    onStore_respects <| Store.consAll_respects hs hv
  induction d generalizing ρ seen seen'
  case nil => exact atom hs .nil
  case truth => exact atom hs .truth
  case int n => exact atom hs (.int n)
  case float x => exact atom hs (.float x)
  case string text =>
    exact (onStore_respects Store.allocString_respects).bind fun τ v v' hρ hv =>
      onStore_respects <| Store.consAll_respects (hs.imp fun _ _ h => h.mono hρ) hv
  case symbol name =>
    refine intern_steady.bind fun x _ hx => ?_
    cases hx
    exact atom hs (.symbol x)
  case pair hcar hcdr =>
    exact (hcar .nil).bind fun τ v v' hρ hv => hcdr (.cons hv <| hs.imp fun _ _ h => h.mono hρ)

theorem build_respects {d : Datum} :
    Respects (likeness exact) ρ (build d) (build d) Value.Alike :=
  buildOn_respects .nil

variable {A : Renaming → α → α → Prop}

theorem reject_respects {defect : Defect} :
    Respects (likeness exact) ρ (reject defect) (reject defect) A := by
  have hd {d : Datum} {τ} : Respects (likeness exact) τ (discard (build d)) (discard (build d))
      fun _ _ _ => True :=
    build_respects.bind fun _ _ _ _ _ => .pure trivial
  refine (Respects.forIn (R := fun _ => Eq) monotone_const ?_ ?_).bind fun _ _ _ _ _ => .throw rfl
  · exact List.forall₂_refl _
  · rintro τ d _ rfl
    exact hd

theorem buildAll_respects {c : Reader.Contents Datum} :
    Respects (likeness exact) ρ (buildAll c) (buildAll c) fun τ =>
      List.Forall₂ (Value.Alike τ) := by
  unfold buildAll
  refine (Respects.mapM (R := fun _ => Eq) monotone_const (List.forall₂_refl _) Value.Alike.monotone
    ?_).bind fun τ vs vs' hρ hv => ?_
  · rintro τ d _ rfl
    exact build_respects
  · cases c.defect
    case none => exact .pure hv
    case some => exact reject_respects

theorem readAll_respects {text : String} :
    Respects (likeness exact) ρ (readAll text) (readAll text) fun τ =>
      List.Forall₂ (Value.Alike τ) :=
  buildAll_respects

theorem read_respects {text : String} :
    Respects (likeness exact) ρ (read text) (read text) Value.Alike := by
  unfold read
  split
  case h_1 => exact build_respects
  case h_2 => exact .throw rfl
  case h_3 => exact reject_respects

end Image
end StepLisp
