import StepLisp.Proofs.Decimal.ReadBack
import StepLisp.Proofs.Text.Grammar

namespace StepLisp

open Reader (Ended Reads Form Items Literal isDelimiter ofWord)

namespace Datum

-- The text of whatever is not a pair.
def atomText : Datum → String
  | nil => "()"
  | truth => "#t"
  | int n => toString n.toInt
  | float x => Style.floatText x
  | string text => Style.quoted text
  | symbol name => name
  | pair .. => ""

-- The `x` of a list `(quote x)`.
def quoted? : Datum → Option Datum
  | pair (symbol "quote") (pair d nil) => some d
  | _ => none

mutual

def text : Datum → String
  | pair (symbol "quote") (pair d nil) => "'" ++ text d
  | pair d e => "(" ++ text d ++ textBehind e
  | d => atomText d

-- The rest of a list, behind one of its elements.
def textBehind : Datum → String
  | nil => ")"
  | pair d e => " " ++ text d ++ textBehind e
  | d => " . " ++ atomText d ++ ")"

end

mutual

-- How many levels of lists and quotes are written inside each other.
def nesting : Datum → Nat
  | pair (symbol "quote") (pair d nil) => nesting d + 1
  | pair d e => max (nesting d) (nestingBehind e) + 1
  | _ => 0

def nestingBehind : Datum → Nat
  | pair d e => max (nesting d) (nestingBehind e)
  | _ => 0

end

end Datum

namespace Reader

variable {w t cs rest : List Char} {d : Datum} {n : Nat}

-- A word that stands for itself wherever it is read.
structure IsName (w : List Char) : Prop where
  ne_nil : w ≠ []
  ne_dot : w ≠ ['.']
  ne_truth : w ≠ ['#', 't']
  not_delimiter : ∀ c ∈ w, isDelimiter c = false
  not_int : Numeral.int64? w = none
  not_float : isNumberLike w → Numeral.float? w = none

instance : Decidable (IsName w) :=
  decidable_of_iff (w ≠ [] ∧ w ≠ ['.'] ∧ w ≠ ['#', 't'] ∧ w.all (!isDelimiter ·) ∧
      Numeral.int64? w = none ∧ (isNumberLike w → Numeral.float? w = none))
    ⟨fun ⟨h₁, h₂, h₃, h₄, h₅, h₆⟩ => ⟨h₁, h₂, h₃, by simpa using h₄, h₅, h₆⟩,
      fun h => ⟨h.ne_nil, h.ne_dot, h.ne_truth, by simpa using h.not_delimiter, h.not_int,
        h.not_float⟩⟩

-- A word that stands for itself, at least where a lone dot is not the dot of a list.
structure IsWord (w : List Char) : Prop where
  ne_nil : w ≠ []
  ne_truth : w ≠ ['#', 't']
  not_delimiter : ∀ c ∈ w, isDelimiter c = false
  not_int : Numeral.int64? w = none
  not_float : isNumberLike w → Numeral.float? w = none

theorem IsName.isWord (h : IsName w) : IsWord w :=
  ⟨h.ne_nil, h.ne_truth, h.not_delimiter, h.not_int, h.not_float⟩

-- A text with a datum right at its start, and not with the dot of a list.
def Starts (t : List Char) : Prop :=
  ∃ c cs, t = c :: cs ∧ Opens c ∧ (c = '.' → ∀ rest, endsDot (cs ++ rest) = false)

theorem Starts.of_ne {c : Char} (hc : Opens c) (hd : c ≠ '.') : Starts (c :: cs) :=
  ⟨c, cs, rfl, hc, (absurd · hd)⟩

theorem Starts.not_dot (h : Starts t) (hg : Gap cs (t ++ rest)) : ¬∃ cs', Dot cs cs' := by
  obtain ⟨c, cs, rfl, hc, hd⟩ := h
  exact hg.not_dot hc fun h => hd h rest

-- A word that stands for the datum.
structure Spells (w : List Char) (d : Datum) : Prop where
  ne_nil : w ≠ []
  not_delimiter : ∀ c ∈ w, isDelimiter c = false
  ofWord_eq : ofWord w = d

namespace Spells

theorem reads (h : Spells w d) (hr : Ended rest) : Reads (n + 1) (w ++ rest) d rest :=
  h.ofWord_eq ▸ ⟨_, .none, .word h.ne_nil h.not_delimiter hr⟩

theorem starts (h : Spells w d) (hd : w ≠ ['.']) : Starts w := by
  obtain ⟨c, w, rfl⟩ := List.exists_cons_of_ne_nil h.ne_nil
  have ⟨hc, hw⟩ := List.forall_mem_cons.mp h.not_delimiter
  refine ⟨c, w, rfl, .of_not_delimiter hc, ?_⟩
  rintro rfl rest
  obtain _ | ⟨c, w⟩ := w
  · exact absurd rfl hd
  · have hc := hw c (by simp)
    simp only [isDelimiter, Bool.or_eq_false_iff] at hc
    simp [endsDot, hc]

theorem of_figures (hf : Numeral.Figures w) (hw : ofWord w = d) : Spells w d where
  ne_nil := hf.ne_nil
  not_delimiter c hc := Numeral.isDelimiter_of_isFigure <| hf.isFigure c hc
  ofWord_eq := hw

theorem truth : Spells "#t".toList .truth :=
  ⟨by decide, List.forall_mem_cons.mpr ⟨rfl, List.forall_mem_singleton.mpr rfl⟩, rfl⟩

theorem int {m : Int64} : Spells m.toInt.repr.toList (.int m) := by
  have hf := Numeral.Figures.repr m.toInt
  exact .of_figures hf <| by simp [ofWord, hf.ne_truth, Numeral.int64?_repr]

theorem float {x : Float} (h : (Binary64.ofFloat x).isFinite) :
    Spells (Style.floatText x).toList (.float x) := by
  have ⟨hf, hp⟩ := Style.figures_floatText h
  exact .of_figures hf <| by
    simp [ofWord, hf.ne_truth, Numeral.int64?_of_point hp, hf.isNumberLike,
      Style.float?_floatText h]

theorem symbol {name : String} (h : IsWord name.toList) : Spells name.toList (.symbol name) where
  ne_nil := h.ne_nil
  not_delimiter := h.not_delimiter
  ofWord_eq := by
    have hf := h.not_float
    cases hn : isNumberLike name.toList <;> simp_all [ofWord, h.ne_truth, h.not_int]

end Spells

theorem literal_quoted {s : List Char} :
    Literal (s.flatMap Style.escape ++ '"' :: rest) s rest := by
  induction s
  case nil => exact .close
  case cons c s hi =>
    rw [List.flatMap_cons, List.append_assoc]
    unfold Style.escape
    split
    case h_6 hq he _ _ _ => exact .plain hq he hi
    all_goals exact .escape hi

end Reader

open Reader (Starts Spells IsName IsWord)

namespace Datum

variable {d e : Datum} {n : Nat} {rest : List Char}

theorem eq_of_quoted? {x : Datum} (h : quoted? d = some x) : d = tagged "quote" x := by
  unfold quoted? at h
  split at h <;> cases h
  rfl

theorem text_of_quoted? {x : Datum} (h : quoted? d = some x) :
    text d = "'" ++ text x ∧ nesting d = nesting x + 1 := by
  obtain rfl := eq_of_quoted? h
  exact ⟨text.eq_1 x, nesting.eq_1 x⟩

theorem text_of_not_quoted? (h : quoted? (pair d e) = none) :
    text (pair d e) = "(" ++ text d ++ textBehind e ∧
      nesting (pair d e) = max (nesting d) (nestingBehind e) + 1 := by
  have hq : ∀ x, d = symbol "quote" → e = pair x nil → False := by
    rintro x rfl rfl
    cases h
  exact ⟨text.eq_2 d e hq, nesting.eq_2 d e hq⟩

-- Numbers have to be finite, and symbols to have words as names.
def Writable : Datum → Prop
  | float x => (Binary64.ofFloat x).isFinite
  | symbol name => IsName name.toList
  | pair d e => Writable d ∧ Writable e
  | _ => True

instance decidableWritable : (d : Datum) → Decidable d.Writable
  | float x => inferInstanceAs (Decidable ((Binary64.ofFloat x).isFinite = true))
  | symbol _ => inferInstanceAs (Decidable (IsName _))
  | pair d e => @instDecidableAnd _ _ (decidableWritable d) (decidableWritable e)
  | nil | truth | int _ | string _ => .isTrue trivial

-- What the reader can make of words.
def Spelled : Datum → Prop
  | symbol name => IsWord name.toList
  | pair d e => Spelled d ∧ Spelled e
  | _ => True

mutual

-- Numbers have to be finite, and a lone dot cannot be written as an element of a list.
def Clear : Datum → Prop
  | pair (symbol "quote") (pair d nil) => Clear d
  | pair d e => d ≠ symbol "." ∧ Clear d ∧ ClearBehind e
  | float x => (Binary64.ofFloat x).isFinite
  | _ => True

def ClearBehind : Datum → Prop
  | pair d e => d ≠ symbol "." ∧ Clear d ∧ ClearBehind e
  | float x => (Binary64.ofFloat x).isFinite
  | _ => True

end

theorem clear_of_quoted? {x : Datum} (h : quoted? d = some x) : d.Clear ↔ x.Clear := by
  obtain rfl := eq_of_quoted? h
  exact Iff.of_eq (Clear.eq_1 x)

theorem clear_of_not_quoted? (h : quoted? (pair d e) = none) :
    (pair d e).Clear ↔ d ≠ symbol "." ∧ d.Clear ∧ e.ClearBehind := by
  have hq : ∀ x, d = symbol "quote" → e = pair x nil → False := by
    rintro x rfl rfl
    cases h
  exact Iff.of_eq (Clear.eq_2 d e hq)

def IsAtom (d : Datum) : Prop :=
  ∀ d' e, d ≠ pair d' e

theorem ClearBehind.clear (h : d.ClearBehind) (ha : d.IsAtom) : d.Clear := by
  cases d
  case pair d e => exact absurd rfl (ha d e)
  all_goals exact h

theorem reads_atomText (ha : d.IsAtom) (hs : d.Spelled) (hc : d.Clear) (hr : Ended rest) :
    Reads (n + 1) (d.atomText.toList ++ rest) d rest ∧
      (d ≠ symbol "." → Starts d.atomText.toList) := by
  have word {w : List Char} {d : Datum} (h : Spells w d) (hd : d ≠ symbol "." → w ≠ ['.']) :
      Reads (n + 1) (w ++ rest) d rest ∧ (d ≠ symbol "." → Starts w) :=
    ⟨h.reads hr, fun hn => h.starts (hd hn)⟩
  cases d
  case nil => exact ⟨⟨_, .none, .list (.close .none)⟩, fun _ => .of_ne ⟨rfl, by decide⟩ (by decide)⟩
  case truth => exact word .truth fun _ => by decide
  case int => exact word .int fun _ => (Numeral.Figures.repr _).ne_dot
  case float => exact word (.float hc) fun _ => (Style.figures_floatText hc).left.ne_dot
  case string s =>
    have h : Form (Reads n) _ _ rest := .string (s := s.toList) Reader.literal_quoted
    rw [String.ofList_toList] at h
    simp only [atomText, Style.quoted, String.toList_ofList]
    exact ⟨⟨_, .none, by simpa using h⟩, fun _ => .of_ne ⟨rfl, by decide⟩ (by decide)⟩
  case symbol name =>
    refine word (.symbol hs) fun hn hd => hn <| congrArg symbol <| String.toList_injective hd
  case pair d e => exact absurd rfl (ha d e)

theorem starts_text (hs : d.Spelled) (hc : d.Clear) (hd : d ≠ symbol ".") :
    Starts d.text.toList := by
  have atom {d : Datum} (ha : d.IsAtom) (hs : d.Spelled) (hc : d.Clear) (hd : d ≠ symbol ".") :
      Starts d.atomText.toList :=
    (reads_atomText (n := 0) ha hs hc (nofun : Ended [])).right hd
  cases d
  case pair d e =>
    cases hq : quoted? (pair d e)
    case some =>
      rw [(text_of_quoted? hq).left, String.toList_append]
      exact .of_ne ⟨rfl, by decide⟩ (by decide)
    case none =>
      rw [(text_of_not_quoted? hq).left, String.toList_append, String.toList_append]
      exact .of_ne ⟨rfl, by decide⟩ (by decide)
  all_goals exact atom nofun hs hc hd

theorem ended_textBehind : Ended (e.textBehind.toList ++ rest) := by
  cases e <;> simp [textBehind, Ended, isDelimiter, Reader.isBlank]

-- The rest of a list, if its elements are read as they should be.
theorem items_textBehind
    (hr : ∀ {d rest}, d.Spelled → d.Clear → d.nesting < n → Ended rest →
      Reads n (d.text.toList ++ rest) d rest)
    (hs : e.Spelled) (hc : e.ClearBehind) (hn : e.nestingBehind < n) :
    Items (Reads n) true (e.textBehind.toList ++ rest) e rest := by
  have space {cs : List Char} : Reader.Gap (' ' :: cs) cs := .blank rfl .none
  have atom {d : Datum} (ht : d.textBehind = " . " ++ d.atomText ++ ")") (ha : d.IsAtom)
      (hs : d.Spelled) (hc : d.ClearBehind) :
      Items (Reads n) true (d.textBehind.toList ++ rest) d rest := by
    obtain _ | n := n
    case zero => cases hn
    have he : Ended (')' :: rest) := by
      rintro _ ⟨⟩
      rfl
    have hd := (reads_atomText (n := n) ha hs (hc.clear ha) he).left
    simp only [ht, String.toList_append, List.append_assoc]
    exact .tail ⟨space, rfl⟩ (hd.gap space) .none
  induction e
  case nil => exact .close .none
  case pair d e _ hi =>
    have ⟨hd, he⟩ := hs
    have ⟨hdot, hcd, hce⟩ := ClearBehind.eq_1 d e ▸ hc
    rw [nestingBehind, Nat.max_lt] at hn
    have hg : Reader.Gap _ (d.text.toList ++ (e.textBehind.toList ++ rest)) := space
    simp only [textBehind, String.toList_append, List.append_assoc]
    exact .element ((starts_text hd hcd hdot).not_dot hg)
      ((hr hd hcd hn.left ended_textBehind).gap hg)
      (hi he hce hn.right)
  all_goals exact atom (by simp [textBehind]) nofun hs hc

-- What is written of a datum is read as that datum, whatever ends a word behind it.
theorem reads_text_of_clear (hs : d.Spelled) (hc : d.Clear) (hn : d.nesting < n) (hr : Ended rest) :
    Reads n (d.text.toList ++ rest) d rest := by
  induction n generalizing d rest
  case zero => cases hn
  case succ n hi =>
    have atom {d : Datum} (ha : d.IsAtom) (hs : d.Spelled) (hc : d.Clear) :
        Reads (n + 1) (d.atomText.toList ++ rest) d rest :=
      (reads_atomText ha hs hc hr).left
    cases d
    case pair d e =>
      cases hq : quoted? (pair d e)
      case some x =>
        have ⟨ht, hl⟩ := text_of_quoted? hq
        have hc := (clear_of_quoted? hq).mp hc
        obtain ⟨rfl, rfl⟩ := pair.inj <| eq_of_quoted? hq
        rw [hl, Nat.succ_lt_succ_iff] at hn
        rw [ht, String.toList_append]
        exact ⟨_, .none, .marked .quote (hi hs.right.left hc hn hr)⟩
      case none =>
        have ⟨ht, hl⟩ := text_of_not_quoted? hq
        have ⟨hd, hcd, hce⟩ := (clear_of_not_quoted? hq).mp hc
        rw [hl, Nat.succ_lt_succ_iff, Nat.max_lt] at hn
        simp only [ht, String.toList_append, List.append_assoc]
        exact ⟨_, .none, .list <| .element ((starts_text hs.left hcd hd).not_dot .none)
          (hi hs.left hcd hn.left ended_textBehind) (items_textBehind hi hs.right hce hn.right)⟩
    all_goals exact atom nofun hs hc

theorem Writable.spelled (h : d.Writable) : d.Spelled := by
  induction d
  case symbol => exact h.isWord
  case pair hd he => exact ⟨hd h.left, he h.right⟩
  all_goals trivial

theorem Writable.ne_dot (h : d.Writable) : d ≠ symbol "." := by
  rintro rfl
  exact h.ne_dot rfl

theorem Writable.clear (h : d.Writable) : d.Clear ∧ d.ClearBehind := by
  induction d
  case float => exact ⟨h, h⟩
  case pair d e hd he =>
    have hb : d ≠ symbol "." ∧ d.Clear ∧ e.ClearBehind :=
      ⟨h.left.ne_dot, (hd h.left).left, (he h.right).right⟩
    refine ⟨?_, ClearBehind.eq_1 d e ▸ hb⟩
    cases hq : quoted? (pair d e)
    case some =>
      obtain ⟨rfl, rfl⟩ := pair.inj <| eq_of_quoted? hq
      rw [clear_of_quoted? hq]
      exact (ClearBehind.eq_1 _ nil ▸ hb.right.right).right.left
    case none => exact (clear_of_not_quoted? hq).mpr hb
  all_goals exact ⟨trivial, trivial⟩

theorem reads_text (hd : d.Writable) (hn : d.nesting < n) (hr : Ended rest) :
    Reads n (d.text.toList ++ rest) d rest :=
  reads_text_of_clear hd.spelled hd.clear.left hn hr

end Datum
end StepLisp
