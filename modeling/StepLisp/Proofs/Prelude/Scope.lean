import StepLisp.Proofs.Parameters
import StepLisp.Proofs.Prelude.Quiet

namespace StepLisp

-- Procedures written in the language itself: the symbols of their names, the procedures, and the
-- pairs that their code is made of.
structure Library where
  sym : String → Symbol
  proc : String → ClosureId
  code : List PairId

-- The names of a scope and what they mean, the innermost first.
abbrev Bindings := List (String × Value)

namespace Store

variable {s s' : Store} {held : List Ref} {e p : FrameId} {es : List FrameId} {v w u : Value}
variable {lib : Library} {x : Symbol} {d : Datum} {ds : List Datum} {ρ : Bindings}
variable {f : Frame} {n : Nat} {ids : List PairId} {vs : List Value} {name : String}

-- Whatever a value leads to is held.
def Holds (s : Store) (held : List Ref) (v : Value) : Prop :=
  ∀ r ∈ v.refs, s.Refers held r

theorem holds_of_subset (h : v.refs ⊆ held) : s.Holds held v :=
  fun _ hr => .root (h hr)

theorem Holds.parts {id : PairId} {c : Cell} (h : s.Holds held (.pair id))
    (hc : s.object? id.ref = some (.cell c)) : s.Holds held c.car ∧ s.Holds held c.cdr := by
  have hr := h id.ref List.mem_cons_self
  exact ⟨fun r hv => .step hr hc (List.mem_append_left _ hv),
    fun r hv => .step hr hc (List.mem_append_right _ hv)⟩

-- Code

-- A value stands for a datum of lists, names and integers. Its pairs are among the code.
inductive Spells (s : Store) (lib : Library) : Value → Datum → Prop
  | nil : Spells s lib .nil .nil
  | int (n : Int64) : Spells s lib (.int n) (.int n)
  | symbol (name : String) : Spells s lib (.symbol (lib.sym name)) (.symbol name)
  | pair {id : PairId} {v w : Value} {d e : Datum} : id ∈ lib.code →
    s.object? id.ref = some (.cell ⟨v, w⟩) → Spells s lib v d → Spells s lib w e →
    Spells s lib (.pair id) (.pair d e)

namespace Spells

theorem imp (h : s.Spells lib v d) (hs : ∀ id ∈ lib.code, s.Refers v.refs id.ref →
    ∀ c, s.object? id.ref = some (.cell c) → s'.object? id.ref = some (.cell c)) :
    s'.Spells lib v d := by
  induction h
  case nil => exact .nil
  case int n => exact .int n
  case symbol name => exact .symbol name
  case pair id v w _ _ hid hc _ _ hv hw =>
    have hh : s.Holds [id.ref] (.pair id) := holds_of_subset fun _ h => h
    have ⟨hcar, hcdr⟩ := hh.parts hc
    refine .pair hid (hs id hid (.root List.mem_cons_self) _ hc) ?_ ?_
    · exact hv fun id' hid' hr => hs id' hid' (hr.mono hcar)
    · exact hw fun id' hid' hr => hs id' hid' (hr.mono hcdr)

theorem keeps (h : s.Spells lib v d) (hv : s.Holds held v) (hk : s.Keeps held s') :
    s'.Spells lib v d :=
  h.imp fun _ _ hr _ => hk.object? (hr.mono hv)

theorem gains (h : s.Spells lib v d) (hg : s.Gains n s') : s'.Spells lib v d :=
  h.imp fun _ _ _ _ => hg.object?

theorem list_cons {e : Datum} (h : s.Spells lib v (.list (d :: ds) e)) : ∃ id w rest, v = .pair id ∧
    s.object? id.ref = some (.cell ⟨w, rest⟩) ∧ s.Spells lib w d ∧
      s.Spells lib rest (.list ds e) := by
  cases h
  case pair _ hc hw hr => exact ⟨_, _, _, rfl, hc, hw, hr⟩

end Spells

-- Lists

-- `s.Row v ids vs w`: from `v` on there are these pairs with these elements, and then `w`.
inductive Row (s : Store) : Value → List PairId → List Value → Value → Prop
  | nil {w : Value} : Row s w [] [] w
  | cons {id : PairId} {v rest w : Value} {ids : List PairId} {vs : List Value} :
    s.object? id.ref = some (.cell ⟨v, rest⟩) → Row s rest ids vs w →
    Row s (.pair id) (id :: ids) (v :: vs) w

namespace Row

theorem imp (h : s.Row v ids vs w) (hs : ∀ id ∈ ids, ∀ c, s.object? id.ref = some (.cell c) →
    s'.object? id.ref = some (.cell c)) : s'.Row v ids vs w := by
  induction h
  case nil => exact .nil
  case cons hc _ hi =>
    have ⟨hid, hids⟩ := List.forall_mem_cons.mp hs
    exact .cons (hid _ hc) (hi hids)

theorem refers (h : s.Row v ids vs w) (hv : s.Holds held v) : ∀ id ∈ ids, s.Refers held id.ref := by
  induction h
  case nil => exact List.forall_mem_nil _
  case cons hc _ hi =>
    exact List.forall_mem_cons.mpr ⟨hv _ List.mem_cons_self, hi (hv.parts hc).right⟩

theorem holds (h : s.Row v ids vs w) (hv : s.Holds held v) :
    (∀ u ∈ vs, s.Holds held u) ∧ s.Holds held w := by
  induction h
  case nil => exact ⟨List.forall_mem_nil _, hv⟩
  case cons hc _ hi =>
    have ⟨hcar, hcdr⟩ := hv.parts hc
    have ⟨hvs, hw⟩ := hi hcdr
    exact ⟨List.forall_mem_cons.mpr ⟨hcar, hvs⟩, hw⟩

theorem keeps (h : s.Row v ids vs w) (hv : s.Holds held v) (hk : s.Keeps held s') :
    s'.Row v ids vs w :=
  h.imp fun id hid _ => hk.object? (h.refers hv id hid)

theorem gains (h : s.Row v ids vs w) (hg : s.Gains n s') : s'.Row v ids vs w :=
  h.imp fun _ _ _ => hg.object?

theorem exists_cons {u : Value} (h : s.Row v ids (u :: vs) w) :
    ∃ i rest js, v = .pair i ∧ s.object? i.ref = some (.cell ⟨u, rest⟩) ∧ s.Row rest js vs w := by
  cases h
  case cons hi hr => exact ⟨_, _, _, rfl, hi, hr⟩

theorem split {us : List Value} (h : s.Row v ids (us ++ vs) w) :
    ∃ is js u, s.Row v is us u ∧ s.Row u js vs w := by
  induction us generalizing v ids
  case nil => exact ⟨[], ids, v, .nil, h⟩
  case cons hi =>
    obtain ⟨i, rest, ks, rfl, ho, h⟩ := h.exists_cons
    have ⟨is, js, u, hu, hv⟩ := hi h
    exact ⟨i :: is, js, u, .cons ho hu, hv⟩

theorem spine (h : s.Row v ids vs w) : s.Spine v ids w ∧ ids.map s.car = vs := by
  induction h
  case nil => exact ⟨.here, rfl⟩
  case cons hc _ hi =>
    have hcar := car_of_object? hc
    refine ⟨.pair ?_, by rw [List.map_cons, hcar, hi.right]⟩
    rw [cdr_of_object? hc]
    exact hi.left

theorem toList? (h : s.Row v ids vs .nil) : s.toList? v = some vs :=
  toList?_eq_some_iff.mpr ⟨ids, h.spine⟩

theorem length_eq (h : s.Row v ids vs w) : ids.length = vs.length := by
  rw [← h.spine.right, List.length_map]

theorem trans {ids' : List PairId} {vs' : List Value} (h : s.Row v ids vs u)
    (h' : s.Row u ids' vs' w) : s.Row v (ids ++ ids') (vs ++ vs') w := by
  induction h
  case nil => exact h'
  case cons hc _ hi => exact .cons hc (hi h')

theorem exists_cell {id : PairId} (h : s.Row v ids vs w) (hid : id ∈ ids) :
    ∃ c, s.object? id.ref = some (.cell c) := by
  induction h
  case nil => cases hid
  case cons hc _ hi =>
    rcases List.mem_cons.mp hid with rfl | hid
    · exact ⟨_, hc⟩
    · exact hi hid

-- Not even a list of all cells is longer than the arena.
theorem length_le (h : s.Row v ids vs .nil) : vs.length ≤ s.totalCells := by
  rw [← h.length_eq]
  refine h.spine.left.length_le rfl fun id hid => ?_
  have ⟨c, hc⟩ := h.exists_cell hid
  exact (Array.getElem?_eq_some_iff.mp (cells_of_object? hc).right).choose

theorem of_spine (h : s.Spine v ids w) (hl : ∀ id ∈ ids, ∃ o, s.object? id.ref = some o) :
    s.Row v ids (ids.map s.car) w := by
  induction h
  case here => exact .nil
  case pair hi =>
    have ⟨⟨o, ho⟩, hids⟩ := List.forall_mem_cons.mp hl
    obtain ⟨c, rfl⟩ := exists_cell_of_object? ho
    have hrow := hi hids
    rw [cdr_of_object? ho] at hrow
    rw [List.map_cons, car_of_object? ho]
    exact .cons ho hrow

end Row

-- The first expressions of a piece of code, and what comes after them.
theorem Spells.split {ds' : List Datum} (h : s.Spells lib v (.list (ds ++ ds') .nil)) :
    ∃ ids vs rest, s.Row v ids vs rest ∧ List.Forall₂ (s.Spells lib) vs ds ∧
      s.Spells lib rest (.list ds' .nil) := by
  induction ds generalizing v
  case nil => exact ⟨[], [], v, .nil, .nil, h⟩
  case cons hi =>
    obtain ⟨id, w, rest, rfl, hc, hw, hr⟩ := h.list_cons
    have ⟨ids, vs, end_, hrow, hvs, he⟩ := hi hr
    exact ⟨id :: ids, w :: vs, end_, .cons hc hrow, .cons hw hvs, he⟩

theorem Spells.row (h : s.Spells lib v (.list ds .nil)) : ∃ ids vs, s.Row v ids vs .nil ∧
    List.Forall₂ (s.Spells lib) vs ds := by
  rw [← List.append_nil ds] at h
  obtain ⟨ids, vs, rest, hrow, hvs, hnil⟩ := h.split
  cases hnil
  exact ⟨ids, vs, hrow, hvs⟩

-- Names

theorem frame_eq_ok_iff : s.frame e = .ok f ↔ s.object? e.ref = some (.frame f) := by
  refine ⟨fun h => ?_, frame_of_object?⟩
  rw [object?_frame, present_eq_ok_iff.mp h]
  rfl

-- What is bound in a frame is held with it.
theorem Refers.holds (he : s.Refers held e.ref) (hf : s.frame e = .ok f) (hv : f.get? x = some v) :
    s.Holds held v := by
  intro r hr
  obtain ⟨front, rest, hl, -⟩ := List.lookup_eq_some_iff.mp hv
  refine he.step (frame_eq_ok_iff.mp hf) <| List.mem_append_left _ <|
    List.mem_flatMap.mpr ⟨v, ?_, hr⟩
  exact List.mem_map.mpr ⟨(x, v), by simp [hl], rfl⟩

-- A name means a value in a scope.
def Sees (s : Store) (e : FrameId) (x : Symbol) (v : Value) : Prop :=
  ∃ es, s.Chain e es ∧ es.findSome? (s.binding? x) = some v

theorem Chain.keeps (h : s.Chain e es) (he : s.Refers held e.ref) (hk : s.Keeps held s') :
    s'.Chain e es ∧ ∀ e' ∈ es, s.Refers held e'.ref ∧ s'.frame e' = s.frame e' := by
  have hframe {e : FrameId} {f : Frame} (hf : s.frame e = .ok f) (he : s.Refers held e.ref) :
      s'.frame e = .ok f := frame_of_object? <| hk.object? he <| frame_eq_ok_iff.mp hf
  induction h
  case last hf hp =>
    have hf' := hframe hf he
    exact ⟨.last hf' hp, by simpa using ⟨he, hf'.trans hf.symm⟩⟩
  case link hf hp _ hi =>
    have hf' := hframe hf he
    have ⟨hc, hes⟩ := hi <| he.step (frame_eq_ok_iff.mp hf) <| List.mem_append_right _ <| by
      simp [hp]
    exact ⟨.link hf' hp hc, List.forall_mem_cons.mpr ⟨⟨he, hf'.trans hf.symm⟩, hes⟩⟩

namespace Sees

theorem lookup? (h : s.Sees e x v) : s.lookup? e x = .ok (some v) := by
  have ⟨es, hc, hx⟩ := h
  rw [lookup?_of_chain hc, hx]

theorem keeps (h : s.Sees e x v) (he : s.Refers held e.ref) (hk : s.Keeps held s') :
    s'.Sees e x v := by
  have ⟨es, hc, hx⟩ := h
  have ⟨hc', hes⟩ := hc.keeps he hk
  refine ⟨es, hc', ?_⟩
  rw [← hx]
  clear hx hc hc'
  induction es
  case nil => rfl
  case cons e' es hi =>
    have ⟨he', hes'⟩ := List.forall_mem_cons.mp hes
    rw [List.findSome?_cons, List.findSome?_cons, hi hes', binding?, binding?, he'.right]

theorem holds (h : s.Sees e x v) (hs : s.Sound) (he : s.Refers held e.ref) : s.Holds held v := by
  have ⟨es, hc, hx⟩ := h
  have ⟨e', he', hb⟩ := List.exists_of_findSome?_eq_some hx
  have hr := ((hc.keeps he (.refl hs)).right e' he').left
  obtain ⟨f, hf, hg⟩ := Option.bind_eq_some_iff.mp hb
  cases hframe : s.frame e' <;> rw [hframe] at hf <;> cases hf
  exact hr.holds hframe hg

theorem child (h : s.Sees p x v) (hf : s.frame e = .ok f) (hp : f.parent = some p)
    (hx : f.get? x = none) : s.Sees e x v := by
  have ⟨es, hc, hv⟩ := h
  exact ⟨_, .link hf hp hc, by rw [List.findSome?_cons, binding?_of_frame hf, hx, hv]⟩

end Sees

theorem Chain.sees (hc : s.Chain p es) (hf : s.frame e = .ok f) (hp : f.parent = some p)
    (hx : f.get? x = some v) : s.Sees e x v :=
  ⟨_, .link hf hp hc, by rw [List.findSome?_cons, binding?_of_frame hf, hx]⟩

-- In a scope the names mean what they are bound to.
structure Scope (s : Store) (lib : Library) (e : FrameId) (ρ : Bindings) : Prop where
  exists_chain : ∃ es, s.Chain e es
  sees (name : String) {v : Value} : ρ.lookup name = some v → s.Sees e (lib.sym name) v

namespace Scope

theorem keeps (h : s.Scope lib e ρ) (he : s.Refers held e.ref) (hk : s.Keeps held s') :
    s'.Scope lib e ρ where
  exists_chain := have ⟨es, hc⟩ := h.exists_chain; ⟨es, (hc.keeps he hk).left⟩
  sees name _ hv := (h.sees name hv).keeps he hk

theorem gains (h : s.Scope lib e ρ) (hg : s.Gains n s') : s'.Scope lib e ρ :=
  have he : s.Refers [e.ref] e.ref := .root List.mem_cons_self
  h.keeps he (.of_gains hg)

end Scope

theorem lookup_map {known : Set String} (hi : Set.InjOn lib.sym known) (hn : ∀ b ∈ ρ, b.1 ∈ known)
    (hx : name ∈ known) : (ρ.map (Prod.map lib.sym id)).lookup (lib.sym name) = ρ.lookup name := by
  induction ρ
  case nil => rfl
  case cons b ρ hρ =>
    have ⟨hb, hn⟩ := List.forall_mem_cons.mp hn
    have he : (lib.sym name == lib.sym b.1) = (name == b.1) := by
      rw [Bool.eq_iff_iff, beq_iff_eq, beq_iff_eq]
      exact hi.eq_iff hx hb
    rw [List.map_cons, List.lookup_cons, List.lookup_cons, hρ hn, Prod.map_fst, he]
    rfl

-- Parameters that begin with names.
theorem Spells.named {names : List String} {d : Datum}
    (h : s.Spells lib v (.list (names.map .symbol) d))
    (hn : ∀ name ∈ names, lib.sym name ≠ .ampersand) :
    ∃ w, s.Spells lib w d ∧ ∀ r, s.Params w [] r →
      s.Named w → s.Params v (names.map lib.sym) r ∧ s.Named v := by
  induction names generalizing v
  case nil => exact ⟨v, h, fun _ hp hd => ⟨hp, hd⟩⟩
  case cons name names hi =>
    have ⟨hname, hnames⟩ := List.forall_mem_cons.mp hn
    obtain ⟨id, w, rest, rfl, hc, hw, hr⟩ := h.list_cons
    cases hw
    obtain ⟨w, hw, hi⟩ := hi hr hnames
    have hcar : s.car id = .symbol (lib.sym name) := car_of_object? hc
    have hcdr : s.cdr id = rest := cdr_of_object? hc
    refine ⟨w, hw, fun r hp hd => ?_⟩
    have ⟨hp, hd⟩ := hi r hp hd
    rw [← hcdr] at hp hd
    exact ⟨.name hcar hname hp, .pair hcar hd⟩

theorem Spells.params {names : List String} (h : s.Spells lib v (.list (names.map .symbol) .nil))
    (hn : ∀ name ∈ names, lib.sym name ≠ .ampersand) :
    s.Params v (names.map lib.sym) .none ∧ s.Named v := by
  obtain ⟨w, hw, hp⟩ := h.named hn
  cases hw
  exact hp _ .nil .nil

-- A name after the mark stands for the rest.
theorem Spells.exists_params {names : List String} {x : String}
    (h : s.Spells lib v (.list (names.map .symbol) (.list [.symbol "&", .symbol x] .nil)))
    (hmark : lib.sym "&" = .ampersand) (hn : ∀ name ∈ names, lib.sym name ≠ .ampersand) :
    ∃ r, s.Params v (names.map lib.sym) r ∧ s.Named v ∧ r.name? s = some (lib.sym x) := by
  obtain ⟨w, hw, hp⟩ := h.named hn
  obtain ⟨i, _, _, rfl, hi, hw, hrest⟩ := hw.list_cons
  cases hw
  obtain ⟨j, _, _, rfl, hj, hx, hnil⟩ := hrest.list_cons
  cases hx
  cases hnil
  have hcar : s.car i = .symbol .ampersand := hmark ▸ car_of_object? hi
  have hcdr : s.cdr i = .pair j := cdr_of_object? hi
  have hd : s.Named (s.cdr i) := by
    have hnil : s.Named (s.cdr j) := by
      rw [cdr_of_object? hj]
      exact .nil
    rw [hcdr]
    exact .pair (car_of_object? hj) hnil
  have ⟨hp, hd⟩ := hp (.marked (s.cdr i)) (.marked hcar) (.pair hcar hd)
  refine ⟨_, hp, hd, ?_⟩
  simp only [Remainder.name?, hcdr, uncons?, car_of_object? hj, cdr_of_object? hj]

end Store

-- What counts as a list is one, if it is held.
theorem Machine.Going.exists_row {m : Machine} {next : Step} {v : Value} {vs : List Value}
    (hg : m.Going next) (hv : m.image.store.Holds (m.roots next) v)
    (hl : m.image.store.toList? v = some vs) : ∃ ids, m.image.store.Row v ids vs .nil := by
  obtain ⟨ids, hs, rfl⟩ := Store.toList?_eq_some_iff.mp hl
  clear hl
  refine ⟨ids, ?_⟩
  generalize Value.nil = w at hs ⊢
  induction hs
  case here => exact .nil
  case pair id _ _ _ hi =>
    have ⟨o, ho⟩ := hg.exists_object (hv id.ref List.mem_cons_self).reachable
    obtain ⟨c, rfl⟩ := Store.exists_cell_of_object? ho
    have hr := hi (Store.cdr_of_object? ho ▸ (hv.parts ho).right)
    rw [Store.cdr_of_object? ho] at hr
    rw [List.map_cons, Store.car_of_object? ho]
    exact .cons ho hr

end StepLisp
