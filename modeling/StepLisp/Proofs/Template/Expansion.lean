import StepLisp.Proofs.Direct.Refinement
import StepLisp.Proofs.Renaming.Collect
import StepLisp.Proofs.Store.Unfolding
import StepLisp.Proofs.Trap

namespace StepLisp

-- What a computation may come to in a world.
def Possibly (α : Type) : Type :=
  World → EStateM.Result Interruption World α → Prop

namespace Possibly

variable {α β : Type}

instance : Monad Possibly where
  pure a w r := r = .ok a w
  bind x f w r :=
    (∃ a w', x w (.ok a w') ∧ f a w' r) ∨ ∃ i w', x w (.error i w') ∧ r = .error i w'

instance : MonadLift Direct Possibly where
  monadLift d w r := r = d w

-- Garbage may be collected. What the references lead to is kept.
def pause (held : List Ref) : Possibly Unit := fun w r =>
  r = .ok () w ∨ ∃ roots, held ⊆ roots ∧
    r = .ok () { w with image.store := (w.image.store.collect roots).2 }

instance : LawfulMonad Possibly := by
  refine .mk' Possibly ?_ ?_ ?_
  all_goals
    intros
    funext w r
    apply propext
  case refine_1 x =>
    show ((∃ a w', x w (.ok a w') ∧ r = .ok a w') ∨ _) ↔ x w r
    cases r <;> simp
  case refine_2 a f =>
    show ((∃ b w', EStateM.Result.ok b w' = .ok a w ∧ f b w' r) ∨
      ∃ i w', EStateM.Result.error i w' = .ok a w ∧ r = .error i w') ↔ f a w r
    simp
  case refine_3 x f g =>
    simp only [Bind.bind]
    constructor
    · rintro (⟨b, w₂, ⟨a, w₁, hx, hf⟩ | ⟨_, _, _, h⟩, hg⟩ |
        ⟨i, w₂, ⟨a, w₁, hx, hf⟩ | ⟨i, w₁, hx, h⟩, hr⟩)
      · exact .inl ⟨a, w₁, hx, .inl ⟨b, w₂, hf, hg⟩⟩
      · cases h
      · exact .inl ⟨a, w₁, hx, .inr ⟨i, w₂, hf, hr⟩⟩
      · cases h
        exact .inr ⟨i, w₂, hx, hr⟩
    · rintro (⟨a, w₁, hx, ⟨b, w₂, hf, hg⟩ | ⟨i, w₂, hf, hr⟩⟩ | ⟨i, w₁, hx, hr⟩)
      · exact .inl ⟨b, w₂, .inl ⟨a, w₁, hx, hf⟩, hg⟩
      · exact .inr ⟨i, w₂, .inl ⟨a, w₁, hx, hf⟩, hr⟩
      · exact .inr ⟨i, w₁, .inr ⟨i, w₁, hx, rfl⟩, hr⟩

theorem liftM_bind {d : Direct α} {g : α → Direct β} :
    (liftM (d >>= g) : Possibly β) = liftM d >>= fun a => liftM (g a) := by
  funext w r
  show (r = EStateM.bind d g w) =
    ((∃ a w', .ok a w' = d w ∧ r = g a w') ∨ ∃ i w', .error i w' = d w ∧ r = .error i w')
  simp only [EStateM.bind]
  cases d w <;> simp

end Possibly

-- What expressions come to in an environment, while there are references to be kept.
abbrev Evaluation := List Ref → FrameId → Value → Possibly Value

namespace Template

open Direct (read within fail)
open Machine (single mistyped write)
open Possibly (pause)

variable (ev : Evaluation) (ex : List Ref → Value → Possibly Value)

-- The items of the list that an expression comes to.
def splice (env : FrameId) (held : List Ref) (exp : Value) : Possibly (List Value) := do
  let v ← ev held env exp
  pause (v.refs ++ held)
  match ← read (·.toList? v) with
  | some items => return items
  | none => within env do mistyped (.notList (← write v))

def plain (held : List Ref) (element : Value) : Possibly (List Value) := do
  let v ← ex held element
  pause (v.refs ++ held)
  return [v]

-- What an element of a template contributes to the list.
def items (env : FrameId) (held : List Ref) (element : Value) : Possibly (List Value) := do
  match ← read (·.uncons? element) with
  | some (.symbol x, operands) =>
    if x = .unquoteSplicing then splice ev env held (← within env (single operands))
    else plain ex held element
  | _ => plain ex held element

-- The elements of a list, from left to right, behind those that are there.
def elements (env : FrameId) (held : List Ref) : Nat → PairId → List Value → Possibly (List Value)
  | 0, _, _ => (throw .unfinished : Direct (List Value))
  | fuel + 1, id, vs => do
    let element ← read (·.car id)
    let rest ← read (·.cdr id)
    if rest.isListLike then
      let vs := vs ++ (← items ev ex env (rest.refs ++ (vs.flatMap Value.refs ++ held)) element)
      match rest with
      | .pair id => elements env held fuel id vs
      | _ => return vs
    else within env do mistyped (.notList (← write rest))

def list (env : FrameId) (held : List Ref) (fuel : Nat) (id : PairId) : Possibly Value := do
  let vs ← elements ev ex env held fuel id []
  pause (vs.flatMap Value.refs ++ held)
  within env (Store.list vs)

def nested (env : FrameId) (held : List Ref) (form : Value) : Possibly Value := do
  let v ← ex held form
  pause (v.refs ++ held)
  within env (Store.list [.symbol .quasiquote, v])

-- What a template comes to.
def expand : Nat → FrameId → List Ref → Value → Possibly Value
  | 0, _, _, _ => (throw .unfinished : Direct Value)
  | fuel + 1, env, held, form => do
    pause (form.refs ++ held)
    match form with
    | .pair id =>
      match ← read (·.car id) with
      | .symbol x =>
        if x = .quasiquote then
          nested (expand fuel env) env held (← within env (single (← read (·.cdr id))))
        else if x = .unquote then
          ev held env (← within env (single (← read (·.cdr id))))
        else if x = .unquoteSplicing then
          let _ ← within env (single (← read (·.cdr id)))
          fail (.malformed .straySplice)
        else list ev (expand fuel env) env held fuel id
      | _ => list ev (expand fuel env) env held fuel id
    | atom => return atom

end Template

-- Templates that are trees

def Tree.pairs : Tree → List PairId
  | leaf _ => []
  | pair id car cdr => id :: (car.pairs ++ cdr.pairs)

namespace Store

variable {s s' : Store} {v : Value} {t : Tree} {roots : List Ref}

theorem Unfolds.part_of_mem (h : s.Unfolds v t) {id : PairId} (hid : id ∈ t.pairs) :
    Relation.ReflTransGen s.Part v (.pair id) := by
  induction h
  case leaf => cases hid
  case pair hi hi' =>
    rcases List.mem_cons.mp hid with rfl | hid
    case inl => exact .refl
    case inr =>
      rcases List.mem_append.mp hid with hid | hid
      case inl => exact .head (.car _) (hi hid)
      case inr => exact .head (.cdr _) (hi' hid)

-- Whether a value is a tree that is not deeper than that.
def isTree (s : Store) : Nat → Value → Bool
  | 0, _ => false
  | n + 1, .pair id => s.isTree n (s.car id) && s.isTree n (s.cdr id)
  | _ + 1, _ => true

theorem exists_unfolds_of_isTree {n : Nat} (h : s.isTree n v) : ∃ t, s.Unfolds v t := by
  induction n generalizing v
  case zero => cases h
  case succ n hi =>
    cases v
    case pair id =>
      have ⟨hcar, hcdr⟩ := Bool.and_eq_true_iff.mp h
      have ⟨t, ht⟩ := hi hcar
      have ⟨u, hu⟩ := hi hcdr
      exact ⟨_, .pair ht hu⟩
    all_goals exact ⟨_, .leaf rfl⟩

-- A value is a tree of pairs that are in use.
inductive Stands (s : Store) : Value → Tree → Prop
  | leaf {v : Value} : v.isPair = false → Stands s v (.leaf v)
  | pair {id : PairId} {c : Cell} {t u : Tree} : s.object? id.ref = some (.cell c) →
    Stands s c.car t → Stands s c.cdr u → Stands s (.pair id) (.pair id t u)

namespace Stands

theorem of_unfolds (h : s.Unfolds v t) (hs : ∀ id ∈ t.pairs, (s.object? id.ref).isSome) :
    s.Stands v t := by
  induction h
  case leaf hv => exact .leaf hv
  case pair id t u _ _ hi hi' =>
    have ⟨o, ho⟩ := Option.isSome_iff_exists.mp <| hs id List.mem_cons_self
    obtain ⟨c, rfl⟩ := exists_cell_of_object? ho
    refine .pair ho ?_ ?_
    · rw [← car_of_object? ho]
      exact hi fun id hid => hs id (by simp [Tree.pairs, hid])
    · rw [← cdr_of_object? ho]
      exact hi' fun id hid => hs id (by simp [Tree.pairs, hid])

theorem exists_pair {id : PairId} (h : s.Stands (.pair id) t) : ∃ car cdr,
    t = .pair id car cdr ∧ s.Stands (s.car id) car ∧ s.Stands (s.cdr id) cdr := by
  cases h
  case leaf hv => cases hv
  case pair hcar hcdr ho =>
    exact ⟨_, _, rfl, by rwa [car_of_object? ho], by rwa [cdr_of_object? ho]⟩

theorem of_uncons? {car cdr : Value} (h : s.Stands v t) (hu : s.uncons? v = some (car, cdr)) :
    ∃ u, s.Stands car u ∧ u.pairs ⊆ t.pairs ∧ u.size < t.size := by
  cases v
  case pair id =>
    obtain ⟨t₁, t₂, rfl, hcar, -⟩ := h.exists_pair
    cases hu
    refine ⟨t₁, hcar, ?_, ?_⟩
    · exact List.subset_cons_of_subset _ (List.subset_append_left _ _)
    · simp only [Tree.size]
      omega
  all_goals cases hu

theorem of_objects (h : s.Stands v t)
    (ho : ∀ id ∈ t.pairs, ∀ o, s.object? id.ref = some o → s'.object? id.ref = some o) :
    s'.Stands v t := by
  induction h
  case leaf hv => exact .leaf hv
  case pair hc _ _ hi hi' =>
    refine .pair (ho _ List.mem_cons_self _ hc) (hi fun id hid => ?_) (hi' fun id hid => ?_)
    all_goals exact ho id (by simp [Tree.pairs, hid])

theorem reachable (h : s.Stands v t) (hv : ∀ r ∈ v.refs, s.Reachable roots r) {id : PairId}
    (hid : id ∈ t.pairs) : s.Reachable roots id.ref := by
  induction h
  case leaf => cases hid
  case pair ho _ _ hi hi' =>
    have hr := hv _ List.mem_cons_self
    rcases List.mem_cons.mp hid with rfl | hid
    case inl => exact hr
    case inr =>
      rcases List.mem_append.mp hid with hid | hid
      case inl => exact hi (fun _ hr' => hr.of_object? ho <| List.mem_append_left _ hr') hid
      case inr => exact hi' (fun _ hr' => hr.of_object? ho <| List.mem_append_right _ hr') hid

theorem retained (h : s.Stands v t) (hv : v.refs ⊆ roots) (hr : s.Retains roots s') :
    s'.Stands v t :=
  h.of_objects fun _ hid _ => hr.object?_eq <| h.reachable (fun _ hr => .root (hv hr)) hid

end Stands

-- Objects may have been added.
structure Adds (s s' : Store) : Prop where
  sound : s'.Sound
  object?_eq {r : Ref} {o : Object} : s.object? r = some o → s'.object? r = some o

theorem adds_of_consAll {vs : List Value} {tail : Value} (hs : s.Sound)
    (h : consAll vs tail s = .ok v s') : s.Adds s' := by
  induction vs generalizing s tail
  case nil =>
    cases h
    exact ⟨hs, id⟩
  case cons u vs hi =>
    simp only [consAll, cons, Bind.bind, EStateM.bind] at h
    cases ha : alloc u tail s <;> simp only [ha] at h
    case error => cases h
    case ok id s₁ =>
      obtain ⟨hn, hp⟩ := alloc_puts hs ha
      have ha := hi hp.sound h
      exact ⟨ha.sound, fun ho => ha.object?_eq <| hp.of_object? hn ho⟩

end Store

namespace Possibly

open Direct (read within)

variable {α β : Type} {P : List PairId} {held held' : List Ref} {d : Direct α} {x : Possibly α}
variable {f : α → Possibly β} {w : World} {e : FrameId}

-- Trees of the given pairs stand as long as they are held.
def Keeps (P : List PairId) (held : List Ref) (x : Possibly α) : Prop :=
  ∀ w a w', x w (.ok a w') → w.image.store.Sound → w'.image.store.Sound ∧
    ∀ v t, v.refs ⊆ held → t.pairs ⊆ P → w.image.store.Stands v t → w'.image.store.Stands v t

def Finishes (x : Possibly α) (w : World) : Prop :=
  ∀ w', ¬x w (.error .unfinished w')

theorem Keeps.pure {a : α} : Keeps P held (Pure.pure a) := by
  rintro w b w' h hs
  cases h
  exact ⟨hs, fun _ _ _ _ => id⟩

theorem Keeps.bind (hx : Keeps P held x) (hf : ∀ a, Keeps P held (f a)) :
    Keeps P held (x >>= f) := by
  rintro w b w' (⟨a, w₁, ha, hb⟩ | ⟨_, _, _, h⟩) hs
  case inl =>
    have ⟨hs₁, hk₁⟩ := hx w a w₁ ha hs
    have ⟨hs', hk'⟩ := hf a w₁ b w' hb hs₁
    exact ⟨hs', fun v t hv ht h => hk' v t hv ht <| hk₁ v t hv ht h⟩
  case inr => cases h

theorem Keeps.mono (hx : Keeps P held x) (h : held' ⊆ held) : Keeps P held' x := by
  intro w a w' ha hs
  have ⟨hs', hk⟩ := hx w a w' ha hs
  exact ⟨hs', fun v t hv => hk v t fun _ hr => h (hv hr)⟩

theorem Keeps.of_adds (h : ∀ w a w', w.image.store.Sound → d w = .ok a w' →
    w.image.store.Adds w'.image.store) : Keeps P held (liftM d) := by
  intro w a w' ha hs
  have had := h w a w' hs ha.symm
  exact ⟨had.sound, fun v t _ _ ht => ht.of_objects fun _ _ _ => had.object?_eq⟩

theorem Keeps.of_pure (h : ∀ w a w', d w = .ok a w' → w' = w) : Keeps P held (liftM d) :=
  .of_adds fun w a w' hs ha => by
    rw [h w a w' ha]
    exact ⟨hs, id⟩

theorem Keeps.of_error (h : ∀ w, ∃ i w', d w = .error i w') : Keeps P held (liftM d) := by
  refine .of_pure fun w a w' ha => ?_
  have ⟨_, _, hi⟩ := h w
  cases ha.symm.trans hi

theorem Keeps.read {g : Store → α} : Keeps P held (liftM (read g)) := by
  refine .of_pure fun w a w' h => ?_
  cases h
  rfl

theorem Keeps.pause (h : held ⊆ held') : Keeps P held (pause held') := by
  rintro w _ _ (hr | ⟨roots, hh, hr⟩) hs <;> cases hr
  case inl => exact ⟨hs, fun _ _ _ _ => id⟩
  case inr =>
    refine ⟨hs.collect, fun v t hv _ ht => ht.retained (fun r hr => ?_) (.collect hs)⟩
    exact hh <| h <| hv hr

theorem Finishes.bind (hx : Finishes x w) (hf : ∀ a w', x w (.ok a w') → Finishes (f a) w') :
    Finishes (x >>= f) w := by
  rintro w' (⟨a, w₁, ha, hb⟩ | ⟨i, w₁, hi, h⟩)
  case inl => exact hf a w₁ ha w' hb
  case inr =>
    cases h
    exact hx w' hi

theorem Finishes.pure {a : α} : Finishes (Pure.pure a) w :=
  nofun

theorem Finishes.within {y : Run α} : Finishes (liftM (within e y)) w := by
  intro w' h
  have hn : Direct.within e y w = .error .unfinished w' := h.symm
  simp only [Direct.within, Direct.native] at hn
  split at hn <;> cases hn

theorem Finishes.fail {fault : Fault} : Finishes (liftM (Direct.fail fault : Direct α)) w :=
  nofun

theorem Finishes.read_bind {g : Store → α} (h : Finishes (f (g w.image.store)) w) :
    Finishes (liftM (read g) >>= f) w := by
  refine .bind nofun fun a w' ha => ?_
  cases ha
  exact h

theorem Finishes.pause : Finishes (pause held) w := by
  rintro w' (h | ⟨_, _, h⟩) <;> cases h

end Possibly

namespace Template

open Direct (read within)
open Machine (single)
open Possibly (Keeps Finishes pause)

variable {P : List PairId} {held : List Ref} {w : World} {e : FrameId} {v : Value} {t : Tree}
variable {ev : Evaluation} {ex : List Ref → Value → Possibly Value} {fuel : Nat} {id : PairId}

theorem of_single {x : Value} {w' : World} (h : within e (single v) w = .ok x w') :
    w' = w ∧ w.image.store.uncons? v = some (x, .nil) := by
  simp only [within, Direct.native, single, Machine.query, Bind.bind, EStateM.bind] at h
  generalize hu : (w.machine { env := e, argl := .nil } 0).image.store.uncons? v = u at h
  rcases u with _ | ⟨only, rest⟩
  case none => cases h
  case some =>
    cases rest <;> cases h
    exact ⟨rfl, hu⟩

theorem single_keeps : Keeps P held (liftM (within e (single v))) :=
  .of_pure fun _ _ _ h => (of_single h).left

theorem list_keeps {vs : List Value} : Keeps P held (liftM (within e (Store.list vs))) := by
  refine .of_adds fun w a w' hs h => ?_
  rw [show (liftM (Store.list vs) : Run Value) = Machine.onImage (Image.onStore (Store.list vs))
    from rfl] at h
  simp only [within, Direct.native, Machine.onImage, Image.onStore] at h
  cases hr : Store.list vs (w.machine { env := e, argl := .nil } 0).image.store <;>
    simp only [hr] at h <;> cases h
  exact Store.adds_of_consAll hs hr

-- Evaluations that always come to something, and leave alone what is held.
structure Benign (P : List PairId) (ev : Evaluation) : Prop where
  keeps (held : List Ref) (env : FrameId) (exp : Value) : Keeps P held (ev held env exp)
  finishes (held : List Ref) (env : FrameId) (exp : Value) (w : World) :
    Finishes (ev held env exp) w

theorem splice_keeps (hev : Benign P ev) : Keeps P held (splice ev e held v) := by
  refine (hev.keeps _ _ _).bind fun v => (Keeps.pause (List.subset_append_right _ _)).bind fun _ =>
    Keeps.read.bind fun items => ?_
  cases items
  case some => exact .pure
  case none => exact .of_error fun _ => ⟨_, _, rfl⟩

theorem plain_keeps (hex : ∀ held form, Keeps P held (ex held form)) :
    Keeps P held (plain ex held v) :=
  (hex _ _).bind fun _ => (Keeps.pause (List.subset_append_right _ _)).bind fun _ => .pure

section

variable (hev : Benign P ev) (hex : ∀ held form, Keeps P held (ex held form))
include hev hex

theorem items_keeps : Keeps P held (items ev ex e held v) := by
  refine Keeps.read.bind fun parts => ?_
  split
  case h_1 =>
    split
    case isTrue => exact single_keeps.bind fun _ => splice_keeps hev
    case isFalse => exact plain_keeps hex
  case h_2 => exact plain_keeps hex

theorem elements_keeps {vs : List Value} : Keeps P held (elements ev ex e held fuel id vs) := by
  induction fuel generalizing id vs
  case zero => exact .of_error fun _ => ⟨_, _, rfl⟩
  case succ hi =>
    refine Keeps.read.bind fun element => Keeps.read.bind fun rest => ?_
    split
    case isTrue =>
      refine ((items_keeps hev hex).mono fun r hr => ?_).bind fun us => ?_
      · simp [hr]
      · split
        case h_1 => exact hi
        case h_2 => exact .pure
    case isFalse => exact .of_error fun _ => ⟨_, _, rfl⟩

theorem template_keeps : Keeps P held (list ev ex e held fuel id) :=
  (elements_keeps hev hex).bind fun _ =>
    (Keeps.pause (List.subset_append_right _ _)).bind fun _ => list_keeps

end

theorem expand_keeps (hev : Benign P ev) (fuel : Nat) (held : List Ref) (form : Value) :
    Keeps P held (expand ev fuel e held form) := by
  induction fuel generalizing held form
  case zero => exact .of_error fun _ => ⟨_, _, rfl⟩
  case succ hi =>
    refine (Keeps.pause (List.subset_append_right _ _)).bind fun _ => ?_
    split
    case h_1 id =>
      refine Keeps.read.bind fun head => ?_
      split
      case h_1 =>
        split
        case isTrue =>
          refine Keeps.read.bind fun _ => single_keeps.bind fun _ => (hi held _).bind fun _ => ?_
          exact (Keeps.pause (List.subset_append_right _ _)).bind fun _ => list_keeps
        case isFalse =>
          split
          case isTrue =>
            exact Keeps.read.bind fun _ => single_keeps.bind fun _ => hev.keeps held e _
          case isFalse =>
            split
            case isTrue =>
              exact Keeps.read.bind fun _ => single_keeps.bind fun _ => .of_error fun _ =>
                ⟨_, _, rfl⟩
            case isFalse => exact template_keeps hev hi
      case h_2 => exact template_keeps hev hi
    case h_2 => exact .pure

-- Templates come to an end

theorem items_finishes (hev : Benign P ev) (hex : ∀ held, Finishes (ex held v) w) :
    Finishes (items ev ex e held v) w := by
  have hp : Finishes (plain ex held v) w :=
    (hex _).bind fun _ _ _ => Finishes.pause.bind fun _ _ _ => .pure
  refine .read_bind ?_
  split
  case h_1 =>
    split
    case isTrue =>
      refine Finishes.within.bind fun exp w' _ => (hev.finishes _ _ _ _).bind fun _ _ _ =>
        Finishes.pause.bind fun _ _ _ => .read_bind ?_
      split
      case h_1 => exact .pure
      case h_2 => exact .within
    case isFalse => exact hp
  case h_2 => exact hp

theorem elements_finishes (hev : Benign P ev) (hex : ∀ held form, Keeps P held (ex held form))
    {n : Nat} (hfin : ∀ held v w t, w.image.store.Sound → w.image.store.Stands v t →
      t.pairs ⊆ P → t.size < n → Finishes (ex held v) w)
    {vs : List Value} (hs : w.image.store.Sound) (ht : w.image.store.Stands (.pair id) t)
    (hp : t.pairs ⊆ P) (hn : t.size ≤ n) (hf : t.size ≤ fuel) :
    Finishes (elements ev ex e held fuel id vs) w := by
  induction fuel generalizing id vs w t
  case zero =>
    obtain ⟨_, _, rfl, -⟩ := ht.exists_pair
    cases hf
  case succ fuel hi =>
    obtain ⟨car, cdr, rfl, hcar, hcdr⟩ := ht.exists_pair
    simp only [Tree.pairs, List.cons_subset, List.append_subset] at hp
    simp only [Tree.size] at hn hf
    refine .read_bind <| .read_bind ?_
    generalize w.image.store.cdr id = rest at hcdr
    split
    case isTrue =>
      refine (items_finishes hev fun held => hfin held _ _ _ hs hcar hp.2.1 (by omega)).bind
        fun us w' hus => ?_
      obtain ⟨hs', hk⟩ := items_keeps hev hex _ _ _ hus hs
      split
      case h_1 id' =>
        refine hi hs' (hk _ _ ?_ hp.2.2 hcdr) hp.2.2 (by omega) (by omega)
        exact List.subset_append_left _ _
      case h_2 => exact .pure
    case isFalse => exact .within

theorem expand_finishes (hev : Benign P ev) (hs : w.image.store.Sound)
    (ht : w.image.store.Stands v t) (hp : t.pairs ⊆ P) (hf : t.size < fuel) :
    Finishes (expand ev fuel e held v) w := by
  induction fuel generalizing held v w t
  case zero => cases hf
  case succ fuel hi =>
    refine Finishes.pause.bind fun _ w₁ hw => ?_
    have hk : Keeps P _ (pause (v.refs ++ held)) := .pause (List.Subset.refl _)
    obtain ⟨hs₁, hk₁⟩ := hk w _ _ hw hs
    have ht₁ := hk₁ v t (List.subset_append_left _ _) hp ht
    split
    case h_1 id =>
      have hl : Finishes (list ev (expand ev fuel e) e held fuel id) w₁ := by
        have hn : t.size ≤ fuel := by omega
        refine .bind (elements_finishes hev (expand_keeps hev fuel)
          (fun _ _ _ _ hs ht hp hf => hi hs ht hp hf) hs₁ ht₁ hp hn hn) fun _ _ _ => ?_
        exact Finishes.pause.bind fun _ _ _ => .within
      obtain ⟨car, cdr, rfl, -, hcdr⟩ := ht₁.exists_pair
      refine .read_bind ?_
      split
      case h_1 =>
        split
        case isTrue =>
          refine .read_bind <| Finishes.within.bind fun form w₂ h => ?_
          obtain ⟨rfl, hu⟩ := of_single h.symm
          obtain ⟨u, hu, hup, hus⟩ := hcdr.of_uncons? hu
          simp only [Tree.pairs, List.cons_subset, List.append_subset] at hp
          simp only [Tree.size] at hf
          refine (hi hs₁ hu (List.Subset.trans hup hp.2.2) (by omega)).bind
            fun _ _ _ => Finishes.pause.bind fun _ _ _ => .within
        case isFalse =>
          split
          case isTrue =>
            exact .read_bind <| Finishes.within.bind fun _ _ _ => hev.finishes held e _ _
          case isFalse =>
            split
            case isTrue => exact .read_bind <| Finishes.within.bind fun _ _ _ => .fail
            case isFalse => exact hl
      case h_2 => exact hl
    case h_2 => exact .pure

end Template

end StepLisp
