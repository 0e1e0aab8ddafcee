import StepLisp.Proofs.Store.Conduct
import StepLisp.Proofs.Text.Shown

namespace StepLisp

namespace Store

variable {s s' : Store}

-- The number of cells that can still be given out.
def room (s : Store) : Nat :=
  s.freeCells.length + (s.capacity - s.totalCells)

theorem hasRoom_of_room (h : 0 < s.room) : s.HasRoom := by
  by_cases hf : s.freeCells = []
  case pos =>
    rw [room, hf, List.length_nil] at h
    exact .inr (by omega)
  case neg => exact .inl hf

theorem room_alloc {v w : Value} {id : PairId} (h : alloc v w s = .ok id s') :
    s'.room + 1 = s.room := by
  simp only [alloc] at h
  split at h
  case h_1 rest hf =>
    cases h
    simp [room, totalCells, hf]
    omega
  case h_2 hf =>
    split at h <;> cases h
    simp [room, totalCells, hf]
    omega

end Store

namespace Datum

def names : Datum → List String
  | symbol name => [name]
  | pair d e => d.names ++ e.names
  | _ => []

end Datum

namespace Image

variable {i i' i'' : Image} {v w : Value} {d e : Datum} {m n : Nat}

-- Nothing is lost, and so many cells are taken.
structure Adds (i : Image) (n : Nat) (i' : Image) : Prop where
  sound : i'.store.Sound
  object? {r : Ref} {o : Object} : i.store.object? r = some o → i'.store.object? r = some o
  names {k : Nat} {name : String} : i.symbols.names[k]? = some name →
    i'.symbols.names[k]? = some name
  room : i'.store.room + n = i.store.room

namespace Adds

theorem refl (h : i.store.Sound) : i.Adds 0 i :=
  ⟨h, id, id, rfl⟩

theorem trans (h : i.Adds m i') (h' : i'.Adds n i'') : i.Adds (m + n) i'' where
  sound := h'.sound
  object? := h'.object? ∘ h.object?
  names := h'.names ∘ h.names
  room := by rw [Nat.add_comm m n, ← Nat.add_assoc, h'.room, h.room]

theorem of_puts {s : Store} {r : Ref} {o : Object} (hn : i.store.object? r = none)
    (hp : i.store.Puts r o s) (hr : s.room + n = i.store.room) :
    i.Adds n { i with store := s } where
  sound := hp.sound
  object? {r' _} h := by
    have hr : r' ≠ r := by
      rintro rfl
      cases hn.symm.trans h
    rw [hp.object?_eq, if_neg hr, h]
  names := id
  room := hr

end Adds

theorem Shows.adds (h : i.Shows v d) (ha : i.Adds n i') : i'.Shows v d := by
  induction h
  case nil => exact .nil
  case truth => exact .truth
  case int n => exact .int n
  case float x => exact .float x
  case string hs => exact .string (ha.object? hs)
  case symbol hx => exact .symbol (ha.names hx)
  case pair hc _ _ hv hw => exact .pair (ha.object? hc) hv hw

theorem cons_adds (hs : i.store.Sound) (hr : 0 < i.store.room) (hv : i.Shows v d)
    (hw : i.Shows w e) :
    ∃ p s, Store.cons v w i.store = .ok p s ∧ i.Adds 1 { i with store := s } ∧
      Shows { i with store := s } p (.pair d e) := by
  have ⟨id, s, ha⟩ := Store.alloc_of_hasRoom (a := v) (b := w) (Store.hasRoom_of_room hr)
  have ⟨hn, hp⟩ := Store.alloc_puts hs ha
  have hi := Adds.of_puts hn hp (Store.room_alloc ha)
  refine ⟨.pair id, s, ?_, hi, .pair ?_ (hv.adds hi) (hw.adds hi)⟩
  · simp [Store.cons, Bind.bind, EStateM.bind, ha, Pure.pure, EStateM.pure]
  · rw [hp.object?_eq, if_pos rfl]

theorem consAll_adds {vs : List Value} {ds : List Datum} (hs : i.store.Sound)
    (hr : vs.length ≤ i.store.room) (hv : List.Forall₂ i.Shows vs ds) (hw : i.Shows w e) :
    ∃ p s, Store.consAll vs w i.store = .ok p s ∧ i.Adds vs.length { i with store := s } ∧
      Shows { i with store := s } p (.list ds.reverse e) := by
  induction vs generalizing i w e ds
  case nil =>
    cases hv
    exact ⟨w, i.store, rfl, .refl hs, hw⟩
  case cons v vs hi =>
    cases hv
    case cons d ds hv hvs =>
      rw [List.length_cons] at hr
      have ⟨p, s, hc, ha, hp⟩ := cons_adds hs (by omega) hv hw
      have ⟨p', s', hc', ha', hp'⟩ := hi ha.sound (by have := ha.room; omega)
        (hvs.imp fun _ _ h => h.adds ha) hp
      refine ⟨p', s', ?_, ?_, ?_⟩
      · simpa [Store.consAll, Bind.bind, EStateM.bind, hc] using hc'
      · rw [List.length_cons, Nat.add_comm]
        exact ha.trans ha'
      · simpa [Datum.list] using hp'

-- The cells of a list are allocated after its end, which takes none.
theorem liftM_consAll_adds {vs : List Value} {ds : List Datum} (ha : i.Adds 0 i')
    (hr : vs.length ≤ i.store.room) (hv : List.Forall₂ i.Shows vs ds) (hw : i'.Shows w e) :
    ∃ v i'', (liftM (Store.consAll vs w) : Act Image Value) i' = .ok v i'' ∧
      i.Adds (0 + vs.length) i'' ∧ i''.Shows v (.list ds.reverse e) ∧ i''.symbols = i'.symbols := by
  have ⟨p, s, hc, ha', hp⟩ := consAll_adds ha.sound (Nat.le_trans hr (Nat.le_of_eq ha.room.symm))
    (hv.imp fun _ _ h => h.adds ha) hw
  exact ⟨p, _, onStore_of_ok hc, ha.trans ha', hp, rfl⟩

theorem buildOn_adds {seen : List Value} {ds : List Datum} (hs : i.store.Sound)
    (hr : d.pairs + seen.length ≤ i.store.room) (hv : List.Forall₂ i.Shows seen ds) :
    ∃ v i', buildOn seen d i = .ok v i' ∧ i.Adds (d.pairs + seen.length) i' ∧
      i'.Shows v (.list ds.reverse d) ∧ i'.symbols = i.symbols.internAll d.names := by
  induction d generalizing i seen ds
  case pair d e hd he =>
    rw [Datum.pairs] at hr
    obtain ⟨v, i₁, hb, ha, hv', hn⟩ := hd hs (by simp; omega) .nil
    obtain ⟨w, i₂, hb', ha', hw, hn'⟩ := he ha.sound (by have := ha.room; simp at *; omega)
      (.cons hv' (hv.imp fun _ _ h => h.adds ha))
    refine ⟨w, i₂, ?_, ?_, ?_, ?_⟩
    · simpa [buildOn, Bind.bind, EStateM.bind, hb] using hb'
    · have he : (d.pair e).pairs + seen.length = d.pairs + 0 + (e.pairs + (seen.length + 1)) := by
        rw [Datum.pairs]
        omega
      exact he ▸ ha.trans ha'
    · simpa [Datum.list] using hw
    · rw [hn', hn]
      exact List.foldl_append.symm
  case string text =>
    obtain ⟨id, s, ht, hn, hp⟩ := Store.allocString_puts text hs
    have hr' : s.room + 0 = i.store.room := by
      cases ht
      rfl
    have ho : s.object? id.ref = some (.string text) := by rw [hp.object?_eq, if_pos rfl]
    obtain ⟨v, i', hc, ha, hw, he⟩ :=
      liftM_consAll_adds (Adds.of_puts hn hp hr') (by simpa [Datum.pairs] using hr) hv (.string ho)
    refine ⟨v, i', ?_, ha, hw, he⟩
    have hl : (liftM (Store.allocString text) : Act Image Value) i = _ := onStore_of_ok ht
    simp only [buildOn, Bind.bind, EStateM.bind]
    rw [hl]
    exact hc
  case symbol name =>
    let t := i.symbols.intern name
    have ha : i.Adds 0 ⟨i.store, t.2⟩ := ⟨hs, id, SymbolTable.names_intern_of_names, rfl⟩
    exact liftM_consAll_adds ha (by simpa [Datum.pairs] using hr) hv
      (.symbol SymbolTable.names_intern)
  case nil => exact liftM_consAll_adds (.refl hs) (by simpa [Datum.pairs] using hr) hv .nil
  case truth => exact liftM_consAll_adds (.refl hs) (by simpa [Datum.pairs] using hr) hv .truth
  case int n => exact liftM_consAll_adds (.refl hs) (by simpa [Datum.pairs] using hr) hv (.int n)
  case float x =>
    exact liftM_consAll_adds (.refl hs) (by simpa [Datum.pairs] using hr) hv (.float x)

theorem build_adds (hs : i.store.Sound) (hr : d.pairs ≤ i.store.room) :
    ∃ v i', build d i = .ok v i' ∧ i.Adds d.pairs i' ∧ i'.Shows v d ∧
      i'.symbols = i.symbols.internAll d.names := by
  have hr : d.pairs + ([] : List Value).length ≤ i.store.room := hr
  exact buildOn_adds hs hr .nil

end Image
end StepLisp
