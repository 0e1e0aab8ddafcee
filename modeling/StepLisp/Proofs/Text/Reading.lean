import StepLisp.Proofs.Text.Bytes

namespace StepLisp.Image

open Reader

variable {i : Image}

theorem forIn_build {ds : List Datum} (hs : i.store.Sound) (hr : Datum.cells ds ≤ i.store.room) :
    ∃ i', (forIn ds PUnit.unit fun d _ => EStateM.bind (discard (build d)) fun _ =>
      pure (ForInStep.yield PUnit.unit) : Act Image PUnit) i = .ok PUnit.unit i' := by
  induction ds generalizing i
  case nil => exact ⟨i, rfl⟩
  case cons d ds hi =>
    rw [Datum.cells_cons] at hr
    have ⟨v, i', hb, ha, _⟩ := build_adds (d := d) hs (by omega)
    have ⟨i'', hf⟩ := hi ha.sound (by have := ha.room; omega)
    have hd : (discard (build d) : Act Image Unit) i = .ok () i' := by
      simp only [discard, Functor.discard, Functor.mapConst, EStateM.map, Function.comp, hb]
    refine ⟨i'', ?_⟩
    simp only [List.forIn_cons, Bind.bind, EStateM.bind, hd, Pure.pure, EStateM.pure]
    exact hf

theorem reject_eq {α : Type} {defect : Defect} (hs : i.store.Sound)
    (hr : Datum.cells defect.complete ≤ i.store.room) :
    ∃ i', (reject defect : Act Image α) i = .error (.unreadable defect.cause) i' := by
  have ⟨i', hf⟩ := forIn_build hs hr
  refine ⟨i', ?_⟩
  unfold reject
  simp only [Bind.bind, EStateM.bind]
  rw [hf]
  rfl

section

variable (before : List Char) {rest behind : List Char} {d : Datum}

theorem readAt_of_reads (hs : i.store.Sound) (hr : 2 * rest.length ≤ i.store.room)
    (h : Reads maxDepth rest d behind) : ∃ v i', i'.Shows v d ∧
      readAt (before ++ rest) (byteLength before) i =
        .ok (some (v, byteLength before + (byteLength rest - byteLength behind))) i' := by
  have hp := h.pairs_le
  have ⟨v, i', hb, _, hv, _⟩ := build_adds (d := d) hs (by omega)
  refine ⟨v, i', hv, ?_⟩
  simp only [readAt, nextAt_append, h.next_eq, Bind.bind, EStateM.bind, hb]
  rfl

theorem readAt_of_gap (h : Gap rest []) :
    readAt (before ++ rest) (byteLength before) i = .ok none i := by
  simp only [readAt, nextAt_append, next_eq_none_iff.mpr h]
  rfl

theorem readAt_of_error {defect : Defect} (hs : i.store.Sound)
    (hr : 2 * rest.length ≤ i.store.room) (h : next rest = .error defect) : ∃ i',
      readAt (before ++ rest) (byteLength before) i = .error (.unreadable defect.cause) i' := by
  have hb := (next_bounded h).cells_le
  simp only [readAt, nextAt_append, h]
  exact reject_eq hs (Nat.le_trans hb hr)

-- There is a datum, or there is only a gap, or there is a defect.
theorem readAt_cases (hs : i.store.Sound)
    (hr : 2 * rest.length ≤ i.store.room) :
    (∃ d behind v i', Reads maxDepth rest d behind ∧ i'.Shows v d ∧
      readAt (before ++ rest) (byteLength before) i =
        .ok (some (v, byteLength before + (byteLength rest - byteLength behind))) i') ∨
    (Gap rest [] ∧ readAt (before ++ rest) (byteLength before) i = .ok none i) ∨
    ∃ cause i', cause.isSyntactic ∧
      readAt (before ++ rest) (byteLength before) i = .error (.unreadable cause) i' := by
  rcases hn : next rest with defect | _ | ⟨d, behind⟩
  · have ⟨i', he⟩ := readAt_of_error before hs hr hn
    exact .inr <| .inr ⟨_, i', (next_bounded hn).isSyntactic, he⟩
  · have hg := next_eq_none_iff.mp hn
    exact .inr <| .inl ⟨hg, readAt_of_gap before hg⟩
  · have h := next_eq_some_iff.mp hn
    have ⟨v, i', hv, he⟩ := readAt_of_reads before hs hr h
    exact .inl ⟨d, behind, v, i', h, hv, he⟩

end

-- What a reader of bytes could complain of, but never does.
def idleComplaints : List String :=
  ["empty word", "invalid UTF-8", "invalid UTF-8 in string", "position out of range"]

theorem message_not_mem {cause : Unreadable} (h : cause.isSyntactic) :
    cause.message ∉ idleComplaints := by
  cases cause <;> cases h <;> decide

theorem readAt_exact (before rest : List Char) (i : Image) (hs : i.store.Sound)
    (hr : 2 * rest.length ≤ i.store.room) :
    let outcome := readAt (before ++ rest) (bytes before).length i
    (∀ d q, (∃ v i', outcome = .ok (some (v, q)) i' ∧ i'.Shows v d) ↔
      ∃ used behind, rest = used ++ behind ∧ q = (bytes (before ++ used)).length ∧
        Reads maxDepth rest d behind) ∧
    (∀ v q i', outcome = .ok (some (v, q)) i' → ∃ d, i'.Shows v d) ∧
    ((∃ i', outcome = .ok none i') ↔ Gap rest []) ∧
    ((¬∃ d behind, Reads maxDepth rest d behind) → ¬Gap rest [] →
      ∃ cause i', outcome = .error (.unreadable cause) i') ∧
    (∀ fault i', outcome = .error fault i' →
      ∃ cause, fault = .unreadable cause ∧ cause.message ∉ idleComplaints) ∧
    -- Words and literals that are cut out of bytes are whole characters.
    (∀ cs, (bytes cs).span (!isDelimiterByte ·) =
      (bytes (cs.span (!isDelimiter ·)).1, bytes (cs.span (!isDelimiter ·)).2)) ∧
    ∀ cs, literalBytes [] (bytes cs) =
      (literal [] cs).map fun (text, rest) => (bytes text.toList, bytes rest) := by
  have hc := readAt_cases before hs hr
  rw [← length_bytes] at hc
  refine ⟨fun d q => ⟨?_, ?_⟩, ?_, ⟨?_, ?_⟩, ?_, ?_, fun _ => span_bytes,
    fun _ => literalBytes_bytes []⟩
  · rintro ⟨v, i', ho, hv⟩
    obtain ⟨d', behind, v', i'', h, hv', he⟩ | ⟨_, he⟩ | ⟨_, _, _, he⟩ := hc <;>
      cases he.symm.trans ho
    obtain rfl := hv.unique hv'
    obtain ⟨used, rfl⟩ := h.suffix
    refine ⟨used, behind, rfl, ?_, h⟩
    simp only [bytes_append, List.length_append, length_bytes, byteLength_append]
    omega
  · rintro ⟨used, behind, rfl, rfl, h⟩
    have ⟨v, i', hv, he⟩ := readAt_of_reads before hs hr h
    refine ⟨v, i', ?_, hv⟩
    simp only [bytes_append, List.length_append, length_bytes, byteLength_append] at he ⊢
    rw [he]
    congr
    omega
  · intro v q i' ho
    obtain ⟨d, _, _, _, _, hv, he⟩ | ⟨_, he⟩ | ⟨_, _, _, he⟩ := hc <;> cases he.symm.trans ho
    exact ⟨d, hv⟩
  · rintro ⟨i', ho⟩
    obtain ⟨_, _, _, _, _, _, he⟩ | ⟨hg, _⟩ | ⟨_, _, _, he⟩ := hc
    · cases he.symm.trans ho
    · exact hg
    · cases he.symm.trans ho
  · intro h
    rw [length_bytes]
    exact ⟨i, readAt_of_gap before h⟩
  · intro hn hg
    obtain ⟨d, behind, _, _, h, _⟩ | ⟨h, _⟩ | ⟨cause, i', _, he⟩ := hc
    · exact absurd ⟨d, behind, h⟩ hn
    · exact absurd h hg
    · exact ⟨cause, i', he⟩
  · intro fault i' ho
    obtain ⟨_, _, _, _, _, _, he⟩ | ⟨_, he⟩ | ⟨cause, _, hm, he⟩ := hc <;> cases he.symm.trans ho
    exact ⟨cause, rfl, message_not_mem hm⟩

theorem readAt_exact_dotted :
    ∃ v i', readAt "é(a .;\n'b . \"c\\d\") x".toList 2 ⟨.new 100 1, .base⟩ =
      .ok (some (v, 19)) i' ∧
      i'.Shows v (.list [.symbol "a", .symbol ".", .tagged "quote" (.symbol "b")]
        (.string "cd")) := by
  let used := "(a .;\n'b . \"c\\d\")".toList
  have ht : "é(a .;\n'b . \"c\\d\") x".toList = ['é'] ++ (used ++ [' ', 'x']) := by decide
  have hp : 2 = (bytes ['é']).length := by decide
  have h := readAt_exact ['é'] (used ++ [' ', 'x']) ⟨.new 100 1, .base⟩ .new (by decide)
  rw [ht, hp]
  exact (h.left _ _).mpr ⟨used, [' ', 'x'], rfl, by decide, datum_eq_ok_iff.mp rfl⟩

end StepLisp.Image
