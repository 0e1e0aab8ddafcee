import StepLisp.Proofs.Course
import StepLisp.Proofs.Stack.Discipline

namespace StepLisp

namespace SymbolTable

variable {t t' : SymbolTable} {x : Symbol} {name : String}

-- The constants and their names.
def wellKnown : List (Symbol × String) := [
  (.quote, "quote"), (.quasiquote, "quasiquote"), (.unquote, "unquote"),
  (.unquoteSplicing, "unquote-splicing"), (.beginForm, "begin"), (.ampersand, "&"),
  (.emptyType, "()"), (.truthType, "#t"), (.pairType, "pair"), (.symbolType, "symbol"),
  (.integerType, "integer"), (.floatType, "float"), (.stringType, "string"),
  (.lambdaType, "lambda"), (.continuationType, "continuation"), (.primitiveType, "primitive"),
  (.opaqueType, "opaque")]

theorem names_base : base.names = (wellKnown.map Prod.snd).toArray := by
  decide +kernel

-- The constants stand in the order of their numbers.
theorem mem_wellKnown_iff :
    (x, name) ∈ wellKnown ↔ (wellKnown.map Prod.snd)[x.id]? = some name := by
  have hn : ∀ (i : Nat) (h : i < wellKnown.length), wellKnown[i].1 = ⟨i⟩ := by decide
  rw [List.getElem?_map, Option.map_eq_some_iff]
  constructor
  case mp =>
    intro h
    obtain ⟨i, hi, he⟩ := List.getElem_of_mem h
    obtain rfl : (⟨i⟩ : Symbol) = x := (hn i hi).symm.trans (congrArg Prod.fst he)
    exact ⟨_, List.getElem?_eq_some_iff.mpr ⟨hi, he⟩, rfl⟩
  case mpr =>
    rintro ⟨⟨y, _⟩, he, rfl⟩
    obtain ⟨hi, he'⟩ := List.getElem?_eq_some_iff.mp he
    obtain rfl : (⟨x.id⟩ : Symbol) = y := (hn x.id hi).symm.trans (congrArg Prod.fst he')
    exact List.mem_of_getElem? he

theorem lookup?_base_iff : base.lookup? name = some x ↔ (x, name) ∈ wellKnown := by
  rw [mem_wellKnown_iff, lookup?, base.agree, names_base, List.getElem?_toArray]

-- Every entry of one table is an entry of the other.
def Keeps (t t' : SymbolTable) : Prop :=
  ∀ name x, t.lookup? name = some x → t'.lookup? name = some x ∧ t'.name x = name

theorem Becomes.keeps (h : t.Becomes t') : t.Keeps t' := by
  obtain ⟨calls, rfl⟩ := h
  intro name x hx
  have hx' : (t.after calls).lookup? name = some x := lookup?_after hx
  exact ⟨hx', name_of_names ((t.after calls).agree.mp hx')⟩

end SymbolTable

open Act Machine SymbolTable

variable {s s' : Stage}

-- A session moves from one stage to the next by calls of the table.
theorem Moves.symbols (h : Moves s s') (hs : s.Holds (·.image.store.ContinuationsFit) Disciplined) :
    s.machine.image.symbols.Becomes s'.machine.image.symbols := by
  cases h
  case request | finish | halt | limit => exact .refl _
  case define m => exact (define_between.left m).image.symbols
  case start d _ _ _ m exp m' hb =>
    have hl := (onImage_between <| Image.build_obeys (d := d)).left m
    exact (left_of_ok hb ▸ hl).image.symbols
  case unbuilt d _ _ _ m _ m' hb =>
    have hl := (onImage_between <| Image.build_obeys (d := d)).left m
    exact (left_of_error hb ▸ hl).image.symbols
  case reject m => exact ((onImage_between Image.reject_obeys).left m).image.symbols
  case step ha | fault ha =>
    have h := hs.advance
    rw [ha] at h
    exact symbols_collectBefore ▸ h.left.symbols

theorem Course.symbols (h : Course s s') (hs : Reached s) :
    s.machine.image.symbols.Becomes s'.machine.image.symbols := by
  induction h
  case refl => exact .refl _
  case tail hc hm hi => exact hi.trans <| hm.symbols <| disciplined_invariant.holds <| hs.course hc

-- A machine starts with the constants and the names that it is built with.
theorem Reached.symbols (h : Reached s) : base.Becomes s.machine.image.symbols := by
  obtain ⟨settings, host, output, m, hb, hc⟩ := h
  have hm := Becomes.internAll.trans (image_of_bare hb).symbols
  exact hm.trans <| Course.symbols hc ⟨settings, host, output, m, hb, .refl⟩

-- Whatever is asked of a table, names and symbols stand for each other one to one and for good.
theorem symbols_stable :
    (∀ calls, let t := base.after calls
      (∀ (name : String) (x : Symbol), t.symbols[name]? = some x ↔ t.names[x.id]? = some name) ∧
      (∀ x : Symbol, x.id < t.size ↔ ∃ name, t.lookup? name = some x) ∧
      (∀ name x, t.lookup? name = some x ↔ (x, name) ∈ wellKnown ∨
        ∃ before rest, calls = before ++ .intern name :: rest ∧
          ((base.after before).intern name).1 = x) ∧
      (∀ name, (t.intern name).2.name (t.intern name).1 = name) ∧
      ∀ later, t.Keeps (t.after later) ∧
        ∀ a b, (t.intern a).1 = (((t.intern a).2.after later).intern b).1 ↔ a = b) ∧
    ∀ s s', Reached s → Course s s' →
      (∃ calls, s.machine.image.symbols = base.after calls) ∧
      s.machine.image.symbols.Keeps s'.machine.image.symbols ∧
      ∀ x name, (x, name) ∈ wellKnown →
        s'.machine.image.symbols.lookup? name = some x ∧
          s'.machine.image.symbols.name x = name := by
  refine ⟨fun calls => ⟨?agree, ?dense, ?interned, ?name, fun later => ⟨?keeps, ?inj⟩⟩, ?life⟩
  case agree => exact fun _ _ => (base.after calls).agree
  case dense => exact fun _ => lt_size_iff
  case interned => exact fun _ _ => lookup?_after_iff.trans <| or_congr_left lookup?_base_iff
  case name => exact fun _ => name_of_names names_intern
  case keeps => exact Becomes.keeps ⟨later, rfl⟩
  case inj => exact fun _ _ => intern_after_eq_iff
  case life =>
    intro s s' hs hc
    refine ⟨hs.symbols, (Course.symbols hc hs).keeps, fun x name hx => ?_⟩
    exact (hs.course hc).symbols.keeps name x <| lookup?_base_iff.mpr hx

-- Reading a name that the machine has not met.
def meets (m : Machine) : Bool :=
  (m.image.symbols.lookup? "spam").isNone ∧
    ((Stage.reading (Reader.walk "spam".toList) m).next.machine.image.symbols.lookup? "spam").isSome

theorem symbols_stable_spam : ∃ s x, Reached s ∧ s.machine.image.symbols.lookup? "spam" = none ∧
    s.next.machine.image.symbols.lookup? "spam" = some x ∧
      ∀ s', Course s.next s' → s'.machine.image.symbols.lookup? "spam" = some x ∧
        s'.machine.image.symbols.name x = "spam" ∧ s'.machine.image.symbols.name .quote =
          "quote" := by
  obtain ⟨m, hb, ht⟩ := exists_bare_of {} default {} meets (by decide +kernel)
  obtain ⟨hn, hx⟩ := of_decide_eq_true ht
  obtain ⟨x, hx⟩ := Option.isSome_iff_exists.mp hx
  have hr : Reached (.reading (Reader.walk "spam".toList) m) := reached_request (.bare hb) _
  refine ⟨_, x, hr, Option.isNone_iff_eq_none.mp hn, hx, fun s' hc => ?_⟩
  obtain ⟨_, hk, hw⟩ := symbols_stable.right _ s' hr.next hc
  exact ⟨(hk _ x hx).left, (hk _ x hx).right, (hw .quote "quote" (by decide)).right⟩

end StepLisp
