import StepLisp.Proofs.Arithmetic
import StepLisp.Proofs.Store.Spine

namespace StepLisp

-- A term comes before the end, in the direction of the step.
def Before (stop step n : Int) : Prop :=
  0 < step ∧ n < stop ∨ step < 0 ∧ stop < n

instance {stop step n : Int} : Decidable (Before stop step n) :=
  inferInstanceAs (Decidable (_ ∨ _))

-- These are the terms before the end: the `k`-th one is `start + k * step`.
def Progression (start stop step : Int) (terms : List Int64) : Prop :=
  ∀ k : Nat, terms[k]?.map Int64.toInt =
    if Before stop step (start + k * step) then some (start + k * step) else none

namespace Progression

variable {start stop step : Int} {x : Int64} {terms : List Int64}

-- Where one term is not before the end, no later one is.
theorem nil_iff : Progression start stop step [] ↔ ¬Before stop step start := by
  refine ⟨fun h => by simpa using h 0, fun h k => ?_⟩
  have hk : ¬Before stop step (start + k * step) := by
    unfold Before at h ⊢
    rcases Int.lt_trichotomy step 0 with hs | hs | hs
    · have := Int.mul_nonpos_of_nonneg_of_nonpos (Int.natCast_nonneg k) hs.le
      omega
    · omega
    · have := Int.mul_nonneg (Int.natCast_nonneg k) hs.le
      omega
  rw [if_neg hk]
  rfl

theorem cons_iff : Progression start stop step (x :: terms) ↔
    x.toInt = start ∧ Before stop step start ∧ Progression (start + step) stop step terms := by
  have hk (k : Nat) : start + (k + 1 : Nat) * step = start + step + k * step := by
    push_cast
    ring
  constructor
  case mp =>
    intro h
    have ⟨hb, hx⟩ : Before stop step start ∧ x.toInt = start := by simpa using h 0
    refine ⟨hx, hb, fun k => ?_⟩
    rw [← hk, ← h (k + 1), List.getElem?_cons_succ]
  case mpr =>
    rintro ⟨hx, hb, h⟩ (_ | k)
    case zero => simp [hx, hb]
    case succ => rw [List.getElem?_cons_succ, h k, hk]

theorem lt_length (h : Progression start stop step terms) {k : Nat}
    (hb : Before stop step (start + k * step)) : k < terms.length := by
  by_contra hk
  have hx := h k
  rw [List.getElem?_eq_none (Nat.le_of_not_lt hk), if_pos hb] at hx
  cases hx

theorem unique {terms' : List Int64} (h : Progression start stop step terms)
    (h' : Progression start stop step terms') : terms = terms' :=
  List.ext_getElem? fun k =>
    Option.map_injective (fun _ _ => Int64.toInt_inj.mp) ((h k).trans (h' k).symm)

end Progression

namespace Machine

variable {start stop step term : Int64} {terms : List Int64}

theorem before_iff : Before stop.toInt step.toInt term.toInt ↔ precedes stop step term :=
  precedes_iff.symm

-- A sum that is no word is not before the end, which is one.
theorem exists_next_of_before (h : Before stop.toInt step.toInt (term.toInt + step.toInt)) :
    ∃ next, Word.add? term step = some next := by
  refine Option.ne_none_iff_exists'.mp fun hn => ?_
  have ho := Word.int64?_eq_none_iff.mp hn
  have hl := stop.le_toInt
  have hu := stop.toInt_lt
  have hl' := term.le_toInt
  have hu' := term.toInt_lt
  unfold Before at h
  omega

theorem exists_progression_after (stop step term : Int64) :
    ∃ terms, Progression (term.toInt + step.toInt) stop.toInt step.toInt terms := by
  induction term using terms_induction stop step
  case more term next hn hp hi =>
    have ⟨terms, ht⟩ := hi
    have he := Word.toInt_of_int64? hn
    rw [← he]
    exact ⟨next :: terms, Progression.cons_iff.mpr ⟨rfl, before_iff.mpr hp, ht⟩⟩
  case last term hl =>
    refine ⟨[], Progression.nil_iff.mpr fun hb => ?_⟩
    have ⟨next, hn⟩ := exists_next_of_before hb
    have hp := hl next hn
    rw [← Word.toInt_of_int64? hn, before_iff, hp] at hb
    cases hb

end Machine

namespace Store

open Machine

variable {s s₁ s₂ s' : Store} {id last : PairId} {v w : Value} {vs : List Value}
variable {start stop step term : Int64} {terms : List Int64}

-- Whatever is there stays as it is, but for one pair.
structure KeepsBut (s : Store) (id : PairId) (s' : Store) : Prop where
  sound : s'.Sound
  object? {r : Ref} {o : Object} : r ≠ id.ref → s.object? r = some o → s'.object? r = some o

-- A pair that was the last one is followed by a new list.
structure Links (s : Store) (last : PairId) (v : Value) (vs : List Value) (s' : Store) : Prop
    extends KeepsBut s last s' where
  room : s'.room + vs.length = s.room
  linked : ∃ w ids, s'.object? last.ref = some (.cell ⟨v, w⟩) ∧ s'.Spine w ids .nil ∧
    ids.map s'.car = vs ∧ ∀ id ∈ ids, s.object? id.ref = none ∧ (s'.object? id.ref).isSome

-- A new pair is put after the last one.
structure Follows (s : Store) (last : PairId) (v w : Value) (id : PairId) (s' : Store) : Prop where
  fresh : s.object? id.ref = none
  sound : s'.Sound
  object?_eq (r : Ref) : s'.object? r = if r = last.ref then some (.cell ⟨v, .pair id⟩)
    else if r = id.ref then some (.cell ⟨w, .nil⟩) else s.object? r
  room : s'.room + 1 = s.room

theorem follows_of_alloc (hs : s.Sound) (hl : s.object? last.ref = some (.cell ⟨v, .nil⟩))
    (ha : alloc w .nil s = .ok id s₁) : s.Follows last v w id (s₁.setCdr last (.pair id)) := by
  have ⟨hn, hp⟩ := alloc_puts hs ha
  have hne : last.ref ≠ id.ref := by
    intro he
    cases (he ▸ hl).symm.trans hn
  have hl₁ : s₁.object? last.ref = some (.cell ⟨v, .nil⟩) := by rw [hp.object?_eq, if_neg hne, hl]
  have hp₂ := setCdr_puts (v := .pair id) hp.sound hl₁
  refine ⟨hn, hp₂.sound, fun r => by rw [hp₂.object?_eq, hp.object?_eq], ?_⟩
  have hr : (s₁.setCdr last (.pair id)).room = s₁.room := by simp [room, totalCells, setCdr]
  rw [hr, room_alloc ha]

namespace Follows

variable (h : s.Follows last v w id s₁)
include h

theorem keepsBut (hk : s₁.KeepsBut id s') : s.KeepsBut last s' where
  sound := hk.sound
  object? {r o} hr ho := by
    have hne : r ≠ id.ref := by
      rintro rfl
      cases h.fresh.symm.trans ho
    refine hk.object? hne ?_
    rw [h.object?_eq, if_neg hr, if_neg hne, ho]

theorem links (hne : last.ref ≠ id.ref) (hk : s₁.Links id w vs s') :
    s.Links last v (w :: vs) s' := by
  obtain ⟨u, ids, hid, hsp, hm, hnew⟩ := hk.linked
  have hroom := hk.room
  have hroom₁ := h.room
  refine ⟨h.keepsBut hk.toKeepsBut, by simp only [List.length_cons]; omega, .pair id, id :: ids, ?_,
    .pair (by rwa [cdr_of_object? hid]), by rw [List.map_cons, car_of_object? hid, hm],
    List.forall_mem_cons.mpr ⟨⟨h.fresh, by rw [hid]; rfl⟩, fun i hi => ?_⟩⟩
  · exact hk.object? hne (by rw [h.object?_eq, if_pos rfl])
  · have ⟨hnone, hsome⟩ := hnew i hi
    refine ⟨?_, hsome⟩
    rw [h.object?_eq] at hnone
    split at hnone
    case isTrue => cases hnone
    case isFalse =>
      split at hnone
      case isTrue => cases hnone
      case isFalse => exact hnone

end Follows

theorem Links.refl (hs : s.Sound) (hl : s.object? last.ref = some (.cell ⟨v, .nil⟩)) :
    s.Links last v [] s :=
  ⟨⟨hs, fun _ => id⟩, rfl, .nil, [], hl, .here, rfl, List.forall_mem_nil _⟩

-- A pair that was not there may be changed without harm.
theorem KeepsBut.object?_of_fresh {r : Ref} {o : Object} {n : Nat} (h : s₁.KeepsBut id s')
    (hn : s.object? id.ref = none) (hg : s.Gains n s₁) (ho : s.object? r = some o) :
    s'.object? r = some o := by
  refine h.object? ?_ (hg.object? ho)
  rintro rfl
  cases hn.symm.trans ho

theorem not_hasRoom_of_room (h : s.room = 0) : ¬s.HasRoom := by
  rintro (hf | hc)
  · exact hf (List.length_eq_zero_iff.mp (Nat.eq_zero_of_add_eq_zero_right h))
  · unfold room at h
    omega

-- Nothing is lost where a cell is asked for in vain.
theorem alloc_fails (hs : s.Sound) (h : s.room = 0) :
    ∃ n s', alloc v w s = .error (.heapExhausted n) s' ∧
    s'.Sound ∧ ∀ r, s'.object? r = s.object? r :=
  ⟨_, _, alloc_of_not_hasRoom (not_hasRoom_of_room h), { hs with }, fun _ => rfl⟩

end Store

namespace Machine

open Store

variable {s : Store} {last : PairId} {v : Value} {start stop step term : Int64} {terms : List Int64}

theorem extend_exact (hs : s.Sound) (hl : s.object? last.ref = some (.cell ⟨v, .nil⟩))
    (ht : Progression (term.toInt + step.toInt) stop.toInt step.toInt terms) :
    (terms.length ≤ s.room → ∃ s', extend stop step term last s = .ok () s' ∧
      s.Links last v (terms.map .int) s') ∧
    (s.room < terms.length → ∃ n s', extend stop step term last s = .error (.heapExhausted n) s' ∧
      s.KeepsBut last s') := by
  induction terms generalizing term s last v
  case nil =>
    have hb := Progression.nil_iff.mp ht
    have he : extend stop step term last = pure () := extend_of_last fun next hn => by
      rwa [← Word.toInt_of_int64? hn, before_iff, Bool.not_eq_true] at hb
    rw [he]
    exact ⟨fun _ => ⟨s, rfl, .refl hs hl⟩, nofun⟩
  case cons next terms hi =>
    have ⟨hn, hb, ht⟩ := Progression.cons_iff.mp ht
    rw [← hn] at hb ht
    rw [extend_of_precedes (Word.int64?_eq_some_iff.mpr hn) (before_iff.mp hb), List.length_cons]
    by_cases hr : s.room = 0
    case pos =>
      refine ⟨fun h => absurd h (by omega), fun _ => ?_⟩
      have ⟨n, s', ha, hs', ho⟩ := alloc_fails (v := .int next) (w := .nil) hs hr
      refine ⟨n, s', ?_, hs', fun _ h => (ho _).trans h⟩
      simp only [Bind.bind, EStateM.bind, ha]
    case neg =>
      have ⟨id, s₁, ha⟩ :=
        alloc_of_hasRoom (a := .int next) (b := .nil) (hasRoom_of_room (s := s) (by omega))
      have hf := follows_of_alloc hs hl ha
      have hne : id.ref ≠ last.ref := by
        intro he
        cases (he ▸ hf.fresh).symm.trans hl
      have hid : (s₁.setCdr last (.pair id)).object? id.ref = some (.cell ⟨.int next, .nil⟩) := by
        rw [hf.object?_eq, if_neg hne, if_pos rfl]
      have hroom := hf.room
      obtain ⟨hok, herr⟩ := hi hf.sound hid ht
      simp only [Bind.bind, EStateM.bind, ha]
      refine ⟨fun h => ?_, fun h => ?_⟩
      · have ⟨s', he, hk⟩ := hok (by omega)
        exact ⟨s', he, hf.links hne.symm hk⟩
      · have ⟨n, s', he, hk⟩ := herr (by omega)
        exact ⟨n, s', he, hf.keepsBut hk⟩

theorem progression_exact (hs : s.Sound)
    (ht : Progression start.toInt stop.toInt step.toInt terms) :
    (terms.length ≤ s.room → ∃ v s' ids, progression start stop step s = .ok v s' ∧
      s.Gains terms.length s' ∧ s'.Spine v ids .nil ∧ ids.map s'.car = terms.map .int ∧
      ∀ id ∈ ids, s.object? id.ref = none ∧ (s'.object? id.ref).isSome) ∧
    (s.room < terms.length → ∃ n s', progression start stop step s = .error (.heapExhausted n) s' ∧
      ∀ r o, s.object? r = some o → s'.object? r = some o) := by
  obtain _ | ⟨first, terms⟩ := terms
  case nil =>
    have hb := Progression.nil_iff.mp ht
    rw [progression, if_neg (before_iff.not.mp hb)]
    exact ⟨fun _ => ⟨.nil, s, [], rfl, .refl hs, .here, rfl, List.forall_mem_nil _⟩,
      fun h => absurd h (Nat.not_lt_zero _)⟩
  case cons =>
    obtain ⟨hx, hb, ht'⟩ := Progression.cons_iff.mp ht
    cases Int64.toInt_inj.mp hx
    rw [progression, if_pos (before_iff.mp hb), List.length_cons]
    by_cases hr : s.room = 0
    case pos =>
      refine ⟨fun h => absurd h (by omega), fun _ => ?_⟩
      obtain ⟨n, s', ha, _, ho⟩ := alloc_fails (v := .int start) (w := .nil) hs hr
      refine ⟨n, s', ?_, fun r _ h => (ho r).trans h⟩
      simp only [Bind.bind, EStateM.bind, ha]
    case neg =>
      obtain ⟨id, s₁, ha⟩ := alloc_of_hasRoom (a := .int start) (b := .nil)
        (hasRoom_of_room (s := s) (by omega))
      obtain ⟨hn, hp⟩ := alloc_puts hs ha
      have hg : s.Gains 1 s₁ := .of_puts hn hp (room_alloc ha)
      have hroom := hg.room
      have hid : s₁.object? id.ref = some (.cell ⟨.int start, .nil⟩) := by
        rw [hp.object?_eq, if_pos rfl]
      obtain ⟨hok, herr⟩ := extend_exact hg.sound hid ht'
      simp only [Bind.bind, EStateM.bind, ha]
      refine ⟨fun h => ?_, fun h => ?_⟩
      · obtain ⟨s', he, hk⟩ := hok (by omega)
        obtain ⟨w, ids, hcell, hsp, hm, hnew⟩ := hk.linked
        have hroom' := hk.room
        rw [List.length_map] at hroom'
        refine ⟨.pair id, s', id :: ids, by simp only [he, pure, EStateM.pure],
          ⟨hk.sound, hk.toKeepsBut.object?_of_fresh hn hg, by omega⟩,
          .pair (by rwa [cdr_of_object? hcell]), by
            rw [List.map_cons, car_of_object? hcell, hm]; rfl,
          List.forall_mem_cons.mpr ⟨⟨hn, by rw [hcell]; rfl⟩, fun i hi => ?_⟩⟩
        obtain ⟨hnone, hsome⟩ := hnew i hi
        refine ⟨Option.eq_none_iff_forall_not_mem.mpr fun o ho => ?_, hsome⟩
        cases (hg.object? ho).symm.trans hnone
      · obtain ⟨n, s', he, hk⟩ := herr (by omega)
        exact ⟨n, s', by simp only [he], fun r o => hk.object?_of_fresh hn hg⟩

theorem exists_progression (start stop step : Int64) :
    ∃ terms, Progression start.toInt stop.toInt step.toInt terms := by
  by_cases hb : Before stop.toInt step.toInt start.toInt
  case pos =>
    have ⟨terms, ht⟩ := exists_progression_after stop step start
    exact ⟨start :: terms, Progression.cons_iff.mpr ⟨rfl, hb, ht⟩⟩
  case neg => exact ⟨[], Progression.nil_iff.mpr hb⟩

section Application

variable {m : Machine} {b : BuiltinId} (hb : Builtin.ofId? b = some .range) (hz : step ≠ 0)
variable (h : m.image.store.toList? m.control.argl = some [.int start, .int stop, .int step])
include hb hz h

theorem step_range : Machine.step (.apply (.builtin b)) m =
    ((progression start stop step : Run Value) >>= deliver) m := by
  rw [Machine.step, applyProc, hb]
  show range m = _
  simp only [range, threeArguments, Bind.bind, EStateM.bind, arguments_of_toList? h, pure,
    EStateM.pure, if_neg hz]

-- There are more terms than cells.
theorem step_range_fails (hs : m.image.store.Sound)
    (ht : Progression start.toInt stop.toInt step.toInt terms)
    (hr : m.image.store.room < terms.length) :
    ∃ n s', Machine.step (.apply (.builtin b)) m =
        .error (.heapExhausted n) { m with image.store := s' } ∧
      ∀ r o, m.image.store.object? r = some o → s'.object? r = some o := by
  obtain ⟨n, s', hp, hk⟩ := (progression_exact hs ht).right hr
  refine ⟨n, s', ?_, hk⟩
  rw [step_range hb hz h]
  simp only [Bind.bind, EStateM.bind, liftM, monadLift, MonadLift.monadLift, onImage, Image.onStore,
    hp]

end Application

end Machine

theorem range_exact {m : Machine} {b : BuiltinId} {start stop step : Int64}
    (hb : Builtin.ofId? b = some .range) (hz : step ≠ 0) (hs : m.image.store.Sound)
    (h : m.image.store.toList? m.control.argl = some [.int start, .int stop, .int step]) :
    ∃ terms, Progression start.toInt stop.toInt step.toInt terms ∧
      (terms.length ≤ m.image.store.room → ∃ v s' ids,
        Machine.step (.apply (.builtin b)) m = .ok m.control.cont
          { m with image.store := s', control.val := v } ∧
        m.image.store.Gains terms.length s' ∧ s'.Spine v ids .nil ∧
        ids.map s'.car = terms.map .int ∧
        ∀ id ∈ ids, m.image.store.object? id.ref = none ∧ (s'.object? id.ref).isSome) ∧
      (m.image.store.room < terms.length → ∃ n s',
        Machine.step (.apply (.builtin b)) m =
          .error (.heapExhausted n) { m with image.store := s' } ∧
        ∀ r o, m.image.store.object? r = some o → s'.object? r = some o) := by
  obtain ⟨terms, ht⟩ := Machine.exists_progression start stop step
  refine ⟨terms, ht, fun hr => ?_, Machine.step_range_fails hb hz h hs ht⟩
  obtain ⟨v, s', ids, hp, hrest⟩ := (Machine.progression_exact hs ht).left hr
  refine ⟨v, s', ids, ?_, hrest⟩
  rw [Machine.step_range hb hz h]
  simp only [Bind.bind, EStateM.bind, liftM, monadLift, MonadLift.monadLift, Machine.onImage,
    Image.onStore, hp]
  rfl

-- A machine that is about to make a progression, with two cells left.
def counting (start stop step : Int64) : Machine where
  image.store.cells := #[⟨.int start, .pair ⟨1⟩⟩, ⟨.int stop, .pair ⟨2⟩⟩, ⟨.int step, .nil⟩]
  image.store.capacity := 5
  image.store.threshold := 1
  image.symbols := .base
  control.env := ⟨0⟩
  control.argl := .pair ⟨0⟩
  global := ⟨0⟩
  settings := {}
  generator := default
  clock := default

-- The third term would be no word.
theorem range_exact_greatest :
    let m := counting 0x7ffffffffffffff8 Int64.maxValue 5
    ∃ v s' ids, Machine.step (.apply (.builtin ⟨Builtin.all.toList.idxOf .range⟩)) m =
        .ok .halt { m with image.store := s', control.val := v } ∧
      s'.Spine v ids .nil ∧
        ids.map s'.car = [.int 0x7ffffffffffffff8, .int 0x7ffffffffffffffd] := by
  intro m
  have hs : m.image.store.Sound := ⟨.nil, nofun, .empty, .empty, .empty, .empty, .empty⟩
  obtain ⟨terms, ht, hok, -⟩ := range_exact (m := m) (b := ⟨Builtin.all.toList.idxOf .range⟩) rfl
    (by decide) hs rfl
  cases ht.unique <| Progression.cons_iff.mpr ⟨rfl, by decide, Progression.cons_iff.mpr
    ⟨(rfl : (0x7ffffffffffffffd : Int64).toInt = _), by decide,
      Progression.nil_iff.mpr (by decide)⟩⟩
  obtain ⟨v, s', ids, hrun, -, hsp, hm, -⟩ := hok (by decide)
  exact ⟨v, s', ids, hrun, hsp, hm⟩

end StepLisp
