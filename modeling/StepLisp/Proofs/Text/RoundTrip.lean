import StepLisp.Proofs.Text.Build

namespace StepLisp

-- Two values of the same structure, each in a store of its own.
inductive Store.Same (s s' : Store) : Value → Value → Prop
  | nil : Same s s' .nil .nil
  | truth : Same s s' .truth .truth
  | int (n : Int64) : Same s s' (.int n) (.int n)
  | float (x : Float) : Same s s' (.float x) (.float x)
  | symbol (x : Symbol) : Same s s' (.symbol x) (.symbol x)
  | string {id id' : StringId} {text : String} :
      s.object? id.ref = some (.string text) → s'.object? id'.ref = some (.string text) →
      Same s s' (.string id) (.string id')
  | pair {id id' : PairId} {v v' w w' : Value} :
      s.object? id.ref = some (.cell ⟨v, w⟩) → s'.object? id'.ref = some (.cell ⟨v', w'⟩) →
      Same s s' v v' → Same s s' w w' → Same s s' (.pair id) (.pair id')

namespace Image

variable {i : Image} {v v' : Value} {d : Datum} {s : Store}

theorem Shows.same (h : i.Shows v d) (h' : Shows ⟨s, i.symbols⟩ v' d) : i.store.Same s v v' := by
  induction h generalizing v'
  case nil => cases h'; exact .nil
  case truth => cases h'; exact .truth
  case int n => cases h'; exact .int n
  case float x => cases h'; exact .float x
  case string hs => cases h'; case string hs' => exact .string hs hs'
  case symbol hx =>
    cases h'
    case symbol hx' =>
      obtain rfl := SymbolTable.eq_of_names hx hx'
      exact .symbol _
  case pair hc _ _ hv hw =>
    cases h'
    case pair hc' hv' hw' => exact .pair hc hc' (hv hv') (hw hw')

theorem Shows.known (h : i.Shows v d) :
    ∀ name ∈ d.names, ∃ x : Symbol, i.symbols.names[x.id]? = some name := by
  induction h
  case symbol x name hx => simpa [Datum.names] using ⟨x, hx⟩
  case pair hv hw => exact List.forall_mem_append.mpr ⟨hv, hw⟩
  all_goals exact nofun

theorem read_write {i : Image} {v : Value} {d : Datum} {s : Store}
    (hq : i.symbols.names[Symbol.quote.id]? = some "quote") (hv : i.Shows v d) (hd : d.Writable)
    (hn : d.nesting < Reader.maxDepth) (hs : s.Sound) (hr : d.pairs ≤ s.room) :
    ∃ v' s', read (i.write v) ⟨s, i.symbols⟩ = .ok v' ⟨s', i.symbols⟩ ∧
      readAt (i.write v).toList 0 ⟨s, i.symbols⟩ =
        .ok (some (v', Reader.byteLength (i.write v).toList)) ⟨s', i.symbols⟩ ∧
      i.store.Same s' v v' := by
  have hw : i.write v = d.text := hv.write_eq hq (Nat.le_of_lt hn)
  have ht : Reader.Reads Reader.maxDepth d.text.toList d [] := by
    simpa using Datum.reads_text hd hn (nofun : Reader.Ended [])
  have ⟨v', ⟨s', symbols⟩, hb, _, hv', he⟩ := build_adds (i := ⟨s, i.symbols⟩) hs hr
  obtain rfl : symbols = i.symbols := he.trans <| SymbolTable.internAll_eq_self hv.known
  refine ⟨v', s', ?_, ?_, hv.same hv'⟩ <;> rw [hw]
  · rw [read, ht.next_eq]
    exact hb
  · rw [readAt, ht.nextAt_eq]
    simp only [Bind.bind, EStateM.bind, hb]
    rfl

theorem read_write_quotation : ∃ i v, write i v = "'(\"a\\\"b\" .c . -0.5)" ∧
    ∃ v' s', read (i.write v) ⟨.new 5 1, i.symbols⟩ = .ok v' ⟨s', i.symbols⟩ ∧
      readAt (i.write v).toList 0 ⟨.new 5 1, i.symbols⟩ =
        .ok (some (v', Reader.byteLength (i.write v).toList)) ⟨s', i.symbols⟩ ∧
      i.store.Same s' v v' := by
  let store : Store :=
    { Store.new 4 1 with
      cells := #[⟨.symbol .quote, .pair ⟨1⟩⟩, ⟨.pair ⟨2⟩, .nil⟩, ⟨.string ⟨0⟩, .pair ⟨3⟩⟩,
        ⟨.symbol ⟨17⟩, .float (-0.5)⟩]
      strings := { entries := #[some "a\"b"] } }
  let i : Image := ⟨store, (SymbolTable.base.intern ".c").2⟩
  have hq : i.symbols.names[Symbol.quote.id]? = some "quote" := by decide +kernel
  have hc : i.symbols.names[17]? = some ".c" := by decide +kernel
  have h : i.Shows (.pair ⟨0⟩) (.tagged "quote"
      (.pair (.string "a\"b") (.pair (.symbol ".c") (.float (-0.5))))) :=
    .pair rfl (.symbol hq) <| .pair rfl (.pair rfl (.string rfl) <|
      .pair rfl (.symbol hc) (.float _)) .nil
  exact ⟨i, .pair ⟨0⟩, by decide +kernel,
    read_write hq h (by decide +kernel) (by decide) .new (by decide)⟩

end Image
end StepLisp
