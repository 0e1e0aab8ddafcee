import StepLisp.Proofs.Decimal.ReadBack
import StepLisp.Proofs.Text.Reading
import StepLisp.Proofs.Text.RoundTrip

namespace StepLisp

namespace Datum

-- A list is one level deeper than what is behind an element, unless it is not written as a list.
theorem nesting_bounds (d : Datum) :
    d.nestingBehind ≤ d.nesting ∧ d.nesting ≤ d.nestingBehind + 1 := by
  cases d
  case pair d e =>
    cases hq : quoted? (pair d e)
    case some x =>
      obtain ⟨rfl, rfl⟩ := pair.inj <| eq_of_quoted? hq
      rw [(text_of_quoted? hq).right]
      simp [nestingBehind, nesting]
    case none =>
      rw [(text_of_not_quoted? hq).right, nestingBehind]
      exact ⟨Nat.le_succ _, Nat.le_refl _⟩
  all_goals exact ⟨Nat.le_refl _, Nat.zero_le _⟩

theorem nesting_of_isAtom {d : Datum} (h : d.IsAtom) : d.nesting = 0 := by
  cases d
  case pair d e => exact absurd rfl (h d e)
  all_goals rfl

end Datum

namespace Reader

variable {w cs cs' rest : List Char} {d : Datum} {n : Nat} {started : Bool} {name : String}
  {part : List Char → Datum → List Char → Prop}

-- What the grammar derives is spelled with words

theorem spelled_ofWord (hn : w ≠ []) (hw : ∀ c ∈ w, isDelimiter c = false) :
    (ofWord w).Spelled := by
  unfold ofWord
  split
  case isTrue => trivial
  case isFalse ht =>
    split
    case h_1 => trivial
    case h_2 hi =>
      split
      case h_1 => trivial
      case h_2 hf =>
        show IsWord (String.ofList w).toList
        rw [String.toList_ofList]
        exact ⟨hn, ht, hw, hi, fun h => by simpa [h] using hf⟩

theorem Mark.isWord (h : Mark cs name cs') : IsWord name.toList := by
  cases h <;> exact IsName.isWord (by decide +kernel)

theorem Items.spelled (hp : ∀ cs d rest, part cs d rest → d.Spelled)
    (h : Items part started cs d rest) : d.Spelled := by
  induction h
  case close => trivial
  case element h _ hi => exact ⟨hp _ _ _ h, hi⟩
  case tail h _ => exact hp _ _ _ h

theorem Reads.spelled (h : Reads n cs d rest) : d.Spelled := by
  induction n generalizing cs d rest
  case zero => cases h
  case succ hi =>
    have ⟨_, _, hf⟩ := h
    cases hf
    case list h => exact h.spelled fun _ _ _ => hi
    case marked hm h => exact ⟨hm.isWord, hi h, trivial⟩
    case string => trivial
    case word hn hw _ _ => exact spelled_ofWord hn hw

-- It is not nested deeper than its text

theorem Items.nestingBehind_lt (hp : ∀ cs d rest, part cs d rest → d.nesting < n)
    (h : Items part started cs d rest) : d = .nil ∨ d.nestingBehind < n := by
  induction h
  case close => exact .inl rfl
  case element d e _ h _ hi =>
    have hd := hp _ _ _ h
    have he : e.nestingBehind < n := by
      obtain rfl | he := hi
      · exact Nat.zero_lt_of_lt hd
      · exact he
    exact .inr <| Datum.nestingBehind.eq_1 d e ▸ Nat.max_lt.mpr ⟨hd, he⟩
  case tail d _ h _ => exact .inr <| Nat.lt_of_le_of_lt d.nesting_bounds.left (hp _ _ _ h)

theorem Reads.nesting_lt (h : Reads n cs d rest) : d.nesting < n := by
  induction n generalizing cs d rest
  case zero => cases h
  case succ n hi =>
    have ⟨_, _, hf⟩ := h
    cases hf
    case list h =>
      have hl := d.nesting_bounds.right
      obtain rfl | hb := h.nestingBehind_lt fun _ _ _ => hi
      · exact Nat.succ_pos n
      · omega
    case marked name d _ h =>
      have hl := (Datum.tagged name d).nesting_bounds.right
      have hb : (Datum.tagged name d).nestingBehind = d.nesting := by
        simp [Datum.tagged, Datum.nestingBehind, Datum.nesting]
      have := hi h
      omega
    case string => exact Nat.succ_pos n
    case word => exact Datum.nesting_of_isAtom isAtom_ofWord ▸ Nat.succ_pos n

end Reader

theorem Act.exists_of_bind {σ α β : Type} {x : Act σ α} {f : α → Act σ β} {s s' : σ} {b : β}
    (h : (x >>= f) s = .ok b s') : ∃ a t, x s = .ok a t ∧ f a t = .ok b s' := by
  simp only [Bind.bind, EStateM.bind] at h
  split at h
  case h_1 a t hx => exact ⟨a, t, hx, h⟩
  case h_2 => cases h

-- Cells

theorem Store.room_consAll {vs : List Value} {w p : Value} {s s' : Store}
    (h : consAll vs w s = .ok p s') : s'.room + vs.length = s.room := by
  induction vs generalizing w s
  case nil =>
    cases h
    rfl
  case cons v vs hi =>
    have ⟨q, t, hc, h⟩ := Act.exists_of_bind h
    have ⟨id, t', ha, ht⟩ := Act.exists_of_bind hc
    cases ht
    have := room_alloc ha
    have := hi h
    rw [List.length_cons]
    omega

namespace Image

variable {i i' : Image} {v w : Value} {d : Datum} {text : String} {rest : List Char}

theorem room_consAll {vs : List Value}
    (h : (liftM (Store.consAll vs w) : Act Image Value) i = .ok v i') :
    i'.store.room + vs.length = i.store.room := by
  cases hc : Store.consAll vs w i.store
  case ok =>
    cases (onStore_of_ok hc).symm.trans h
    exact Store.room_consAll hc
  case error =>
    change onStore (Store.consAll vs w) i = _ at h
    simp only [onStore, hc] at h
    cases h

theorem room_buildOn {seen : List Value} (h : buildOn seen d i = .ok v i') :
    i'.store.room + (d.pairs + seen.length) = i.store.room := by
  induction d generalizing seen i v i'
  case pair d e hd he =>
    obtain ⟨u, t, hc, h⟩ := Act.exists_of_bind h
    have := hd hc
    have := he h
    simp only [List.length_nil, List.length_cons, Datum.pairs] at *
    omega
  case string text =>
    obtain ⟨u, t, ht, h⟩ := Act.exists_of_bind h
    have hr : t.store.room = i.store.room := by
      cases ht
      rfl
    simpa [Datum.pairs, hr] using room_consAll h
  case symbol name =>
    obtain ⟨u, t, ht, h⟩ := Act.exists_of_bind h
    have hr : t.store.room = i.store.room := by
      cases ht
      rfl
    simpa [Datum.pairs, hr] using room_consAll h
  all_goals simpa [Datum.pairs] using room_consAll h

theorem reject_ne_ok {α : Type} {defect : Defect} {a : α} :
    (reject defect : Act Image α) i ≠ .ok a i' := by
  intro h
  have ⟨_, _, _, h⟩ := Act.exists_of_bind h
  cases h

-- What is read from a text stands for what the grammar derives there.
theorem shows_of_read (hs : i.store.Sound) (h : read text i = .ok v i') : ∃ d rest,
    Reader.Reads Reader.maxDepth text.toList d rest ∧ i.Adds d.pairs i' ∧ i'.Shows v d := by
  rw [read] at h
  rcases hn : Reader.next text.toList with defect | _ | ⟨d, rest⟩ <;> rw [hn] at h
  · exact absurd h reject_ne_ok
  · cases h
  · have hr := room_buildOn h
    obtain ⟨v', i'', hb, ha, hv, _⟩ := build_adds (d := d) hs (by simp at hr; omega)
    cases hb.symm.trans h
    exact ⟨d, rest, Reader.next_eq_some_iff.mp hn, ha, hv⟩

theorem read_of_reads (h : Reader.Reads Reader.maxDepth text.toList d rest) (hs : i.store.Sound)
    (hr : d.pairs ≤ i.store.room) :
    ∃ v i', read text i = .ok v i' ∧ i.Adds d.pairs i' ∧ i'.Shows v d ∧
      i'.symbols = i.symbols.internAll d.names := by
  rw [read, h.next_eq]
  exact build_adds hs hr

theorem datum_eq_of_same {s s' : Store} {t t' : SymbolTable} {v v' : Value} {d d' : Datum}
    (h : s.Same s' v v')
    (hn : ∀ {k : Nat} {name : String}, t.names[k]? = some name → t'.names[k]? = some name)
    (hd : Shows ⟨s, t⟩ v d) (hd' : Shows ⟨s', t'⟩ v' d') : d = d' := by
  induction h generalizing d d'
  case symbol x =>
    cases hd
    case symbol hx =>
      cases hd'
      case symbol hx' =>
        cases (hn hx).symm.trans hx'
        rfl
  case string hs hs' =>
    cases hd
    case string ht =>
      cases hd'
      case string ht' =>
        cases hs.symm.trans ht
        cases hs'.symm.trans ht'
        rfl
  case pair hc hc' _ _ hv hw =>
    cases hd
    case pair hcar hcdr hp =>
      cases hd'
      case pair hcar' hcdr' hp' =>
        cases hc.symm.trans hp
        cases hc'.symm.trans hp'
        rw [hv hcar hcar', hw hcdr hcdr']
  all_goals
    cases hd
    cases hd'
    rfl

-- If the text of what was read is read as something else, then so is what is written.
theorem differs_of_reads {d' : Datum} {rest' : List Char} (hs : i.store.Sound)
    (hq : i.symbols.names[Symbol.quote.id]? = some "quote")
    (h : Reader.Reads Reader.maxDepth text.toList d rest)
    (h' : Reader.Reads Reader.maxDepth d.text.toList d' rest') (hne : d ≠ d')
    (hr : d.pairs + d'.pairs ≤ i.store.room) :
    ∃ v i' v' i'', read text i = .ok v i' ∧ read (i'.write v) i' = .ok v' i'' ∧
      ¬i'.store.Same i''.store v v' := by
  have ⟨v, i', hv, ha, hd, _⟩ := read_of_reads h hs (Nat.le_trans (Nat.le_add_right _ _) hr)
  rw [← hd.write_eq (ha.names hq) (Nat.le_of_lt h.nesting_lt)] at h'
  have ⟨v', i'', hv', ha', hd', _⟩ := read_of_reads h' ha.sound (by have := ha.room; omega)
  exact ⟨v, i', v', i'', hv, hv', fun hsame => hne (datum_eq_of_same hsame ha'.names hd hd')⟩

theorem read_write_read {i i' : Image} {v : Value} {text : String}
    (hq : i.symbols.names[Symbol.quote.id]? = some "quote") (hs : i.store.Sound)
    (h : read text i = .ok v i') :
    (∃ d, i'.Shows v d) ∧ ∀ d, i'.Shows v d → d.Clear → ∀ s : Store, s.Sound → d.pairs ≤ s.room →
      ∃ v' s', read (i'.write v) ⟨s, i'.symbols⟩ = .ok v' ⟨s', i'.symbols⟩ ∧
        i'.store.Same s' v v' := by
  have ⟨d, _, hr, ha, hv⟩ := shows_of_read hs h
  refine ⟨⟨d, hv⟩, fun d' hd' hc s hs' hroom => ?_⟩
  obtain rfl := hd'.unique hv
  have hn := hr.nesting_lt
  have ht : Reader.Reads Reader.maxDepth (i'.write v).toList d' [] := by
    rw [hv.write_eq (ha.names hq) (Nat.le_of_lt hn)]
    simpa using Datum.reads_text_of_clear hr.spelled hc hn (nofun : Reader.Ended [])
  have ⟨v', ⟨s', symbols⟩, hb, _, hv', he⟩ := read_of_reads (i := ⟨s, i'.symbols⟩) ht hs' hroom
  obtain rfl : symbols = i'.symbols := he.trans <| SymbolTable.internAll_eq_self hv.known
  exact ⟨v', s', hb, hv.same hv'⟩

theorem read_write_read_dotted : ∃ v i', read "(.5 '. . (x))" ⟨.new 10 1, .base⟩ = .ok v i' ∧
    ∃ v' s', read (i'.write v) ⟨.new 10 1, i'.symbols⟩ = .ok v' ⟨s', i'.symbols⟩ ∧
      i'.store.Same s' v v' := by
  let d : Datum :=
    .list [.float (.ofScientific 5 true 1), .tagged "quote" (.symbol "."), .symbol "x"] .nil
  have hr : Reader.Reads Reader.maxDepth "(.5 '. . (x))".toList d [] :=
    Reader.datum_eq_ok_iff.mp rfl
  have hf : (Binary64.ofFloat (.ofScientific 5 true 1)).isFinite := by decide +kernel
  have hc : d.Clear := by
    simp [d, Datum.list, Datum.tagged, Datum.Clear, Datum.ClearBehind, hf]
  obtain ⟨v, i', h, _, hv, _⟩ := read_of_reads hr (i := ⟨.new 10 1, .base⟩) .new (by decide)
  have hb := read_write_read (by decide +kernel) .new h
  exact ⟨v, i', h, hb.right d hv hc (.new 10 1) .new (by decide)⟩

-- A dot right before a parenthesis is a symbol, and a number out of range is infinite.
theorem read_write_differs :
    (∃ v i' v' i'', read "(a .(b))" ⟨.new 10 1, .base⟩ = .ok v i' ∧
      read (i'.write v) i' = .ok v' i'' ∧ ¬i'.store.Same i''.store v v') ∧
    ∃ v i' v' i'', read "1e400" ⟨.new 10 1, .base⟩ = .ok v i' ∧
      read (i'.write v) i' = .ok v' i'' ∧ ¬i'.store.Same i''.store v v' := by
  have differs (d d' : Datum) {text text' : String} {rest rest' : List Char}
      (h : Reader.datum Reader.maxDepth text.toList = .ok (d, rest)) (ht : d.text = text')
      (h' : Reader.datum Reader.maxDepth text'.toList = .ok (d', rest'))
      (hne : d ≠ d') (hr : d.pairs + d'.pairs ≤ 10) :=
    differs_of_reads (i := ⟨.new 10 1, .base⟩) .new (by decide +kernel)
      (Reader.datum_eq_ok_iff.mp h) (Reader.datum_eq_ok_iff.mp (ht ▸ h')) hne hr
  constructor
  · let d : Datum := .list [.symbol "a", .symbol ".", .list [.symbol "b"] .nil] .nil
    let d' : Datum := .list [.symbol "a", .symbol "b"] .nil
    have ht : d.text = "(a . (b))" := by decide
    exact differs d d' rfl ht rfl (by simp [d, d', Datum.list]) (by decide)
  · let d : Datum := .float (.ofScientific 1 false 400)
    have ht : d.text = "inf" := by decide +kernel
    exact differs d (.symbol "inf") rfl ht rfl nofun (by decide)

end Image
end StepLisp
