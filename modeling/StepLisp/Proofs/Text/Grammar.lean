import Mathlib.Data.List.TakeDrop
import StepLisp.Reader

namespace StepLisp.Reader

variable {c : Char} {w cs cs' rest : List Char} {d e : Datum} {n : Nat} {started : Bool}

-- Blanks and comments. A comment ends with its line, or with the text.
inductive Gap : List Char → List Char → Prop
  | none {cs : List Char} : Gap cs cs
  | blank {c : Char} {cs rest : List Char} : isBlank c → Gap cs rest → Gap (c :: cs) rest
  | comment {body cs rest : List Char} :
      '\n' ∉ body → Gap cs rest → Gap (';' :: (body ++ '\n' :: cs)) rest
  | unended {body : List Char} : '\n' ∉ body → Gap (';' :: body) []

-- A string literal behind its opening quote, and what it stands for.
inductive Literal : List Char → List Char → List Char → Prop
  | close {rest : List Char} : Literal ('"' :: rest) [] rest
  | escape {c : Char} {cs s rest : List Char} :
      Literal cs s rest → Literal ('\\' :: c :: cs) (escaped c :: s) rest
  | plain {c : Char} {cs s rest : List Char} :
      c ≠ '"' → c ≠ '\\' → Literal cs s rest → Literal (c :: cs) (c :: s) rest

-- A mark in front of a datum. A comma followed by an at sign is never a mark of its own.
inductive Mark : List Char → String → List Char → Prop
  | quote {rest : List Char} : Mark ('\'' :: rest) "quote" rest
  | quasiquote {rest : List Char} : Mark ('\x60' :: rest) "quasiquote" rest
  | unquote {rest : List Char} : rest.head? ≠ some '@' → Mark (',' :: rest) "unquote" rest
  | splice {rest : List Char} : Mark (',' :: '@' :: rest) "unquote-splicing" rest

-- Where a word can end.
def Ended (rest : List Char) : Prop :=
  ∀ c ∈ rest.head?, isDelimiter c

-- A dot that announces the tail of a list.
def Dot (cs rest : List Char) : Prop :=
  Gap cs ('.' :: rest) ∧ endsDot rest

section

variable (part : List Char → Datum → List Char → Prop)

-- What may stand in a list, up to its closing parenthesis. There is no tail before an element.
inductive Items : Bool → List Char → Datum → List Char → Prop
  | close {started : Bool} {cs rest : List Char} :
      Gap cs (')' :: rest) → Items started cs .nil rest
  | element {started : Bool} {cs cs' rest : List Char} {d e : Datum} :
      (¬∃ cs', Dot cs cs') → part cs d cs' → Items true cs' e rest →
      Items started cs (.pair d e) rest
  | tail {cs cs' cs'' rest : List Char} {d : Datum} :
      Dot cs cs' → part cs' d cs'' → Gap cs'' (')' :: rest) → Items true cs d rest

inductive Form : List Char → Datum → List Char → Prop
  | list {cs rest : List Char} {d : Datum} : Items part false cs d rest → Form ('(' :: cs) d rest
  | marked {cs cs' rest : List Char} {name : String} {d : Datum} :
      Mark cs name cs' → part cs' d rest → Form cs (.tagged name d) rest
  | string {cs s rest : List Char} :
      Literal cs s rest → Form ('"' :: cs) (.string (String.ofList s)) rest
  | word {w rest : List Char} :
      w ≠ [] → (∀ c ∈ w, isDelimiter c = false) → Ended rest → Form (w ++ rest) (ofWord w) rest

end

-- There is a datum at the start of a text, nested at most so many levels deep.
def Reads : Nat → List Char → Datum → List Char → Prop
  | 0, _, _, _ => False
  | n + 1, cs, d, rest => ∃ cs', Gap cs cs' ∧ Form (Reads n) cs' d rest

variable {part : List Char → Datum → List Char → Prop}

-- Gaps

@[simp]
theorem skipBlank_cons : skipBlank (c :: cs) =
    if isBlank c then skipBlank cs else if c = ';' then skipComment cs else c :: cs := by
  rw [skipBlank]

theorem skipComment_append (h : '\n' ∉ w) : skipComment (w ++ '\n' :: cs) = skipBlank cs := by
  induction w
  case nil => simp [skipComment]
  case cons c w hi =>
    simp only [List.mem_cons, not_or] at h
    simp [skipComment, Ne.symm h.left, hi h.right]

-- The first character of something that is not a gap.
structure Opens (c : Char) : Prop where
  not_blank : isBlank c = false
  not_comment : c ≠ ';'

theorem Opens.of_not_delimiter (h : isDelimiter c = false) : Opens c := by
  simp only [isDelimiter, Bool.or_eq_false_iff, decide_eq_false_iff_not] at h
  exact ⟨h.1.1.1.1.1.1.1, h.2⟩

theorem Gap.skipBlank_eq (h : Gap cs (c :: rest)) (hc : Opens c) : skipBlank cs = c :: rest := by
  generalize hr : c :: rest = cs' at h
  induction h
  case none =>
    subst hr
    simp [hc.not_blank, hc.not_comment]
  case blank hb _ hi => simp [hb, hi hr]
  case comment hb _ hi => simp [isBlank, skipComment_append hb, hi hr]
  case unended => cases hr

theorem Gap.length_le (h : Gap cs rest) : rest.length ≤ cs.length := by
  induction h <;> simp <;> omega

theorem Gap.trans (h : Gap cs cs') (h' : Gap cs' rest) : Gap cs rest := by
  induction h
  case none => exact h'
  case blank hb _ hi => exact .blank hb (hi h')
  case comment hb _ hi => exact .comment hb (hi h')
  case unended hb =>
    cases h'
    exact .unended hb

theorem Gap.not_dot (h : Gap cs (c :: rest)) (hc : Opens c) (hd : c = '.' → endsDot rest = false) :
    ¬∃ cs', Dot cs cs' := by
  intro ⟨cs', hg, he⟩
  have hs := hg.skipBlank_eq ⟨rfl, by decide⟩
  rw [h.skipBlank_eq hc] at hs
  obtain ⟨rfl, rfl⟩ := List.cons.inj hs
  simp [hd rfl] at he

-- Literals, marks and words

theorem Literal.literal_eq {s seen : List Char} (h : Literal cs s rest) :
    literal seen cs = .ok (String.ofList (seen.reverse ++ s), rest) := by
  induction h generalizing seen
  case close => simp [literal]
  case escape hi => simp [literal, hi]
  case plain hq he _ hi => simp [literal, he, hi]

theorem Literal.length_lt {s : List Char} (h : Literal cs s rest) : rest.length < cs.length := by
  induction h <;> simp <;> omega

theorem Mark.length_lt {name : String} (h : Mark cs name rest) : rest.length < cs.length := by
  cases h <;> exact Nat.lt_of_succ_le (by simp)

theorem span_word (hw : ∀ c ∈ w, isDelimiter c = false) (hr : Ended rest) :
    (w ++ rest).span (!isDelimiter ·) = (w, rest) := by
  have hp : ∀ c ∈ w, (!isDelimiter c) = true := fun c hc => by simp [hw c hc]
  rw [List.span_eq_takeWhile_dropWhile, List.takeWhile_append_of_pos hp,
    List.dropWhile_append_of_pos hp]
  cases rest
  case nil => simp
  case cons c rest =>
    have hc : isDelimiter c = true := hr c rfl
    simp [hc]

theorem Form.opens (h : Form part cs d rest) : ∃ c cs', cs = c :: cs' ∧ Opens c ∧ c ≠ ')' := by
  cases h
  case list => exact ⟨_, _, rfl, ⟨rfl, by decide⟩, by decide⟩
  case marked h _ => cases h <;> exact ⟨_, _, rfl, ⟨rfl, by decide⟩, by decide⟩
  case string => exact ⟨_, _, rfl, ⟨rfl, by decide⟩, by decide⟩
  case word w hw hd _ =>
    obtain ⟨c, w, rfl⟩ := List.exists_cons_of_ne_nil hw
    have hc := hd c (by simp)
    refine ⟨c, w ++ rest, rfl, .of_not_delimiter hc, ?_⟩
    rintro rfl
    cases hc

-- Lengths

theorem Items.length_lt (hp : ∀ cs d rest, part cs d rest → rest.length < cs.length)
    (h : Items part started cs d rest) : rest.length < cs.length := by
  induction h
  case close h => exact h.length_le
  case element h _ hi => exact Nat.lt_trans hi (hp _ _ _ h)
  case tail hd h hc =>
    have := hd.left.length_le
    have := hp _ _ _ h
    have := hc.length_le
    simp only [List.length_cons] at *
    omega

theorem Reads.length_lt (h : Reads n cs d rest) : rest.length < cs.length := by
  induction n generalizing cs d rest
  case zero => cases h
  case succ hi =>
    have ⟨cs', hg, hf⟩ := h
    refine Nat.lt_of_lt_of_le ?_ hg.length_le
    cases hf
    case list h => exact Nat.lt_succ_of_lt <| h.length_lt fun _ _ _ => hi
    case marked hm h => exact Nat.lt_trans (hi h) hm.length_lt
    case string h => exact Nat.lt_succ_of_lt h.length_lt
    case word hw _ _ => simpa using List.length_pos_iff.mpr hw

theorem Reads.gap (h : Reads n cs' d rest) (hg : Gap cs cs') : Reads n cs d rest := by
  cases n
  case zero => cases h
  case succ =>
    have ⟨_, hg', hf⟩ := h
    exact ⟨_, hg.trans hg', hf⟩

-- The reader

theorem Reads.opens (h : Reads n cs d rest) :
    ∃ c cs', skipBlank cs = c :: cs' ∧ c ≠ ')' ∧ Gap cs (c :: cs') ∧ Reads n (c :: cs') d rest := by
  cases n
  case zero => cases h
  case succ n =>
    have ⟨_, hg, hf⟩ := h
    obtain ⟨c, cs', rfl, hc, hn⟩ := hf.opens
    exact ⟨c, cs', hg.skipBlank_eq hc, hn, hg, _, .none, hf⟩

theorem Gap.skipBlank_close (h : Gap cs (')' :: rest)) : skipBlank cs = ')' :: rest :=
  h.skipBlank_eq ⟨rfl, by decide⟩

theorem Items.elements_eq (seen : List Datum) {fuel : Nat}
    (hr : ∀ {cs d rest}, Reads n cs d rest → datum n cs = .ok (d, rest))
    (h : Items (Reads n) started cs d rest) (hs : seen.isEmpty = !started)
    (hf : cs.length < fuel) :
    elements (datum n) fuel seen cs = .ok (.list seen.reverse d, rest) := by
  induction h generalizing seen fuel <;> obtain _ | fuel := fuel
  case close.zero | element.zero | tail.zero => cases hf
  case close.succ h => simp [elements, h.skipBlank_close]
  case element.succ d _ hd h _ hi =>
    have ⟨c, cs', hb, hc, hg, h'⟩ := h.opens
    have hdot : ¬(c = '.' ∧ endsDot cs') := by
      rintro ⟨rfl, he⟩
      exact hd ⟨cs', hg, he⟩
    have hlen := h.length_lt
    have hi := hi (d :: seen) rfl (Nat.lt_of_lt_of_le hlen (Nat.le_of_lt_succ hf))
    simpa [elements, hb, hc, hdot, hr h', Datum.list] using hi
  case tail.succ hd h hc =>
    have ⟨hg, he⟩ := hd
    have hb := hg.skipBlank_eq ⟨rfl, by decide⟩
    simp [elements, hb, he, hs, hr h, hc.skipBlank_close]

theorem Reads.datum_eq (h : Reads n cs d rest) : datum n cs = .ok (d, rest) := by
  induction n generalizing cs d rest
  case zero => cases h
  case succ n hi =>
    have ⟨cs', hg, hf⟩ := h
    obtain ⟨c, cs', rfl, hc, _⟩ := hf.opens
    rw [datum, hg.skipBlank_eq hc]
    generalize hcs : c :: cs' = text at hf
    cases hf
    case list hl =>
      cases hcs
      exact hl.elements_eq [] hi rfl (Nat.lt_succ_self _)
    case marked hm hd =>
      cases hm <;> cases hcs
      case unquote.refl hc => rcases cs' with _ | ⟨c, cs'⟩ <;> simp_all [hi hd, Reader.marked]
      all_goals simp [hi hd, Reader.marked]
    case string hl =>
      cases hcs
      simp [hl.literal_eq]
    case word w hw hd hr =>
      obtain ⟨c, w, rfl⟩ := List.exists_cons_of_ne_nil hw
      have hs := span_word hd hr
      rw [List.span_eq_takeWhile_dropWhile, Prod.mk.injEq, List.cons_append] at hs
      have hc := hd c (by simp)
      simp only [isDelimiter, Bool.or_eq_false_iff, decide_eq_false_iff_not] at hc
      simp [hc, hs]

theorem Reads.next_eq (h : Reads maxDepth cs d rest) : next cs = .ok (some (d, rest)) := by
  have ⟨_, _, hs, _⟩ := h.opens
  simp [next, hs, h.datum_eq]

theorem Reads.nextAt_eq (h : Reads maxDepth cs d rest) :
    nextAt cs 0 = .ok (some (d, byteLength cs - byteLength rest)) := by
  simp [nextAt, dropBytes, h.next_eq]

end StepLisp.Reader
