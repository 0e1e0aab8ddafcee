import Mathlib.Data.List.TakeWhile
import StepLisp.Proofs.Text.Build

namespace StepLisp

-- The cells that a list of data takes, one for each of the data besides their own.
def Datum.cells (ds : List Datum) : Nat :=
  (Datum.list ds .nil).pairs

namespace Datum

variable {d e : Datum} {ds ds' : List Datum}

theorem pairs_of_isAtom (h : d.IsAtom) : d.pairs = 0 := by
  cases d
  case pair d e => exact absurd rfl (h d e)
  all_goals rfl

@[simp]
theorem cells_nil : cells [] = 0 :=
  rfl

@[simp]
theorem cells_cons : cells (d :: ds) = d.pairs + cells ds + 1 :=
  rfl

@[simp]
theorem cells_append : cells (ds ++ ds') = cells ds + cells ds' := by
  induction ds
  case nil => simp
  case cons hi => simp [hi]; omega

@[simp]
theorem cells_reverse : cells ds.reverse = cells ds := by
  induction ds
  case nil => rfl
  case cons hi => simp [hi]; omega

end Datum

namespace Reader

variable {c : Char} {w cs cs' rest : List Char} {d e : Datum} {n : Nat} {started : Bool}
  {part : List Char → Datum → List Char → Prop} {defect : Defect}

-- Gaps

-- A comment ends with its line or with the text, and more of a gap may follow.
theorem skip_gap (cs : List Char) : Gap cs (skipBlank cs) ∧
    ((∃ body cs', cs = body ++ '\n' :: cs' ∧ '\n' ∉ body ∧ Gap cs' (skipComment cs)) ∨
      '\n' ∉ cs ∧ skipComment cs = []) := by
  induction cs
  case nil => exact ⟨.none, .inr ⟨by simp, rfl⟩⟩
  case cons c cs hi =>
    have ⟨hb, hc⟩ := hi
    constructor
    · rw [skipBlank]
      split
      case isTrue hbl => exact .blank hbl hb
      case isFalse =>
        split
        case isTrue hs =>
          subst hs
          obtain ⟨body, cs', rfl, hn, hg⟩ | ⟨hn, he⟩ := hc
          · exact .comment hn hg
          · exact he ▸ .unended hn
        case isFalse => exact .none
    · rw [skipComment]
      split
      case isTrue h =>
        subst h
        exact .inl ⟨[], cs, rfl, by simp, hb⟩
      case isFalse h =>
        refine hc.imp ?_ ?_
        · rintro ⟨body, cs', rfl, hn, hg⟩
          exact ⟨c :: body, cs', rfl, by simp [Ne.symm h, hn], hg⟩
        · rintro ⟨hn, he⟩
          exact ⟨by simp [Ne.symm h, hn], he⟩

theorem gap_skipBlank (cs : List Char) : Gap cs (skipBlank cs) :=
  (skip_gap cs).left

theorem skip_opens (cs : List Char) : (∀ c ∈ (skipBlank cs).head?, Opens c) ∧
    ∀ c ∈ (skipComment cs).head?, Opens c := by
  induction cs
  case nil => simp [skipBlank, skipComment]
  case cons c cs hi =>
    obtain ⟨hb, hc⟩ := hi
    constructor
    · rw [skipBlank]
      split
      case isTrue => exact hb
      case isFalse hbl =>
        split
        case isTrue => exact hc
        case isFalse hs =>
          rintro _ ⟨⟩
          exact ⟨Bool.eq_false_iff.mpr hbl, hs⟩
    · rw [skipComment]
      split
      case isTrue => exact hb
      case isFalse => exact hc

theorem opens_of_skipBlank (h : skipBlank cs = c :: rest) : Opens c :=
  (skip_opens cs).left c (by rw [h]; rfl)

theorem skipComment_of_not_mem (h : '\n' ∉ w) : skipComment w = [] := by
  induction w
  case nil => rfl
  case cons c w hi =>
    simp only [List.mem_cons, not_or] at h
    rw [skipComment, if_neg (Ne.symm h.left), hi h.right]

theorem Gap.skipBlank_end (h : Gap cs []) : skipBlank cs = [] := by
  generalize hr : [] = rest at h
  induction h
  case none => rw [← hr, skipBlank]
  case blank hb _ hi => simp [hb, hi hr]
  case comment hb _ hi => simp [isBlank, skipComment_append hb, hi hr]
  case unended hb => simp [isBlank, skipComment_of_not_mem hb]

theorem skipBlank_eq_nil_iff : skipBlank cs = [] ↔ Gap cs [] :=
  ⟨fun h => h ▸ gap_skipBlank cs, Gap.skipBlank_end⟩

theorem Gap.of_skipBlank (h : skipBlank cs = rest) : Gap cs rest :=
  h ▸ gap_skipBlank cs

-- Literals and words

-- The last case of a literal, which comes after the two of an escape.
theorem ne_backslash (hn : c = '\\' → cs = [] → False)
    (hc : ∀ c' cs', c = '\\' → cs = c' :: cs' → False) : c ≠ '\\' := by
  intro h
  cases cs
  case nil => exact hn h rfl
  case cons c' cs' => exact hc c' cs' h rfl

theorem literal_sound {seen : List Char} {text : String} (h : literal seen cs = .ok (text, rest)) :
    ∃ s, Literal cs s rest ∧ text = String.ofList (seen.reverse ++ s) := by
  fun_induction literal seen cs
  case case1 | case3 => cases h
  case case2 =>
    cases h
    exact ⟨[], .close, by simp⟩
  case case4 hi =>
    have ⟨s, hs, ht⟩ := hi h
    exact ⟨_, .escape hs, by simpa using ht⟩
  case case5 hq hn hc hi =>
    have ⟨s, hs, ht⟩ := hi h
    exact ⟨_, .plain hq (ne_backslash hn hc) hs, by simpa using ht⟩

theorem word_sound (hc : isDelimiter c = false) :
    Form part (c :: cs) (ofWord ((c :: cs).takeWhile (!isDelimiter ·)))
      ((c :: cs).dropWhile (!isDelimiter ·)) := by
  have hn : (c :: cs).takeWhile (!isDelimiter ·) ≠ [] := by simp [hc]
  have hw : ∀ c' ∈ (c :: cs).takeWhile (!isDelimiter ·), isDelimiter c' = false := by
    intro c' hc'
    simpa using List.mem_takeWhile_imp hc'
  have hr : Ended ((c :: cs).dropWhile (!isDelimiter ·)) := by
    intro c' hc'
    have hd := List.head?_dropWhile_not (!isDelimiter ·) (c :: cs)
    rw [hc'] at hd
    simpa using hd
  have hf : Form part (_ ++ _) _ _ := .word hn hw hr
  rwa [List.takeWhile_append_dropWhile] at hf

theorem isAtom_ofWord : (ofWord w).IsAtom := by
  unfold ofWord
  split
  case isTrue => exact nofun
  case isFalse =>
    split
    case h_1 => exact nofun
    case h_2 => split <;> exact nofun

-- What the grammar derives takes few cells

theorem Items.pairs_le
    (hp : ∀ cs d rest, part cs d rest → d.pairs + 1 + 2 * rest.length ≤ 2 * cs.length)
    (h : Items part started cs d rest) : d.pairs + 1 + 2 * rest.length ≤ 2 * cs.length := by
  induction h
  case close h =>
    have := h.length_le
    simp only [List.length_cons, Datum.pairs] at *
    omega
  case element h _ hi =>
    have := hp _ _ _ h
    rw [Datum.pairs]
    omega
  case tail hd h hc =>
    have := hd.left.length_le
    have := hp _ _ _ h
    have := hc.length_le
    simp only [List.length_cons] at *
    omega

theorem Reads.pairs_le (h : Reads n cs d rest) : d.pairs + 1 + 2 * rest.length ≤ 2 * cs.length := by
  induction n generalizing cs d rest
  case zero => cases h
  case succ hi =>
    have ⟨cs', hg, hf⟩ := h
    have hl := hg.length_le
    cases hf
    case list h =>
      have := h.pairs_le fun _ _ _ => hi
      simp only [List.length_cons] at hl
      omega
    case marked hm h =>
      have := hi h
      have := hm.length_lt
      simp only [Datum.tagged, Datum.pairs]
      omega
    case string h =>
      have := h.length_lt
      simp only [List.length_cons, Datum.pairs] at *
      omega
    case word w hw _ _ =>
      have := List.length_pos_iff.mpr hw
      have hp : (ofWord w).pairs = 0 := Datum.pairs_of_isAtom isAtom_ofWord
      simp only [List.length_append, hp] at *
      omega

-- The reader

end Reader

-- The causes that lie in the text itself.
def Unreadable.isSyntactic : Unreadable → Bool
  | emptyInput | positionOutOfRange => false
  | _ => true

-- The cause lies in the text, and what was complete takes at most so many cells.
structure Defect.Bounded (defect : Defect) (n : Nat) : Prop where
  cells_le : Datum.cells defect.complete ≤ n
  isSyntactic : defect.cause.isSyntactic

namespace Reader

def Answers (n : Nat) (cs : List Char) : Outcome → Prop
  | .ok (d, rest) => Reads n cs d rest
  | .error defect => defect.Bounded (2 * cs.length)

theorem Answers.reads {o : Outcome} (h : Answers n cs o) (ho : o = .ok (d, rest)) :
    Reads n cs d rest := by
  subst ho
  exact h

theorem Answers.bounded {o : Outcome} (h : Answers n cs o) (ho : o = .error defect) :
    defect.Bounded (2 * cs.length) := by
  subst ho
  exact h

theorem Answers.gap {o : Outcome} (h : Answers n cs' o) (hg : Gap cs cs') : Answers n cs o := by
  cases o
  case ok => exact Reads.gap h hg
  case error =>
    have := hg.length_le
    exact ⟨Nat.le_trans h.cells_le (by omega), h.isSyntactic⟩

def ListAnswers (n : Nat) (seen : List Datum) (cs : List Char) : Outcome → Prop
  | .ok (d, rest) => ∃ e, d = .list seen.reverse e ∧ Items (Reads n) (!seen.isEmpty) cs e rest
  | .error defect => defect.Bounded (Datum.cells seen + 2 * cs.length)

theorem elements_answers {seen : List Datum} {fuel : Nat} (hd : ∀ cs, Answers n cs (datum n cs)) :
    ListAnswers n seen cs (elements (datum n) fuel seen cs) := by
  fun_induction elements (datum n) fuel seen cs
  case case1 | case2 => exact ⟨by simp, rfl⟩
  case case3 hc => exact ⟨_, rfl, .close (.of_skipBlank hc)⟩
  case case4 => exact ⟨by simp, rfl⟩
  case case5 seen cs c cs' _ hs hdot _ defect he =>
    have ⟨hb, hc⟩ := (hd cs').bounded he
    have := (Gap.of_skipBlank hs).length_le
    refine ⟨?_, hc⟩
    simp only [List.length_cons, Datum.cells_append, Datum.cells_reverse] at *
    omega
  case case6 seen cs c cs' _ hs hdot hn tail rest he rest' hc =>
    simp only [Bool.and_eq_true, decide_eq_true_eq] at hdot
    obtain ⟨rfl, hdot⟩ := hdot
    have h := (hd cs').reads he
    refine ⟨tail, rfl, ?_⟩
    rw [Bool.not_eq_true] at hn
    rw [hn]
    exact .tail ⟨.of_skipBlank hs, hdot⟩ h (.of_skipBlank hc)
  case case7 seen cs c cs' _ hs hdot _ tail rest he _ =>
    have h := (hd cs').reads he
    have := (Gap.of_skipBlank hs).length_le
    have := h.pairs_le
    refine ⟨?_, rfl⟩
    simp only [List.length_cons, Datum.cells_append, Datum.cells_reverse, Datum.cells_cons,
      Datum.cells_nil] at *
    omega
  case case8 seen cs c cs' _ hs _ defect he =>
    have ⟨hb, hc⟩ := (hd (c :: cs')).bounded he
    have := (Gap.of_skipBlank hs).length_le
    refine ⟨?_, hc⟩
    simp only [Datum.cells_append, Datum.cells_reverse] at *
    omega
  case case9 fuel seen cs c cs' _ hs hdot d rest he hi =>
    have h := (hd (c :: cs')).reads he
    have hg := Gap.of_skipBlank hs
    cases ho : elements (datum n) fuel (d :: seen) rest <;> rw [ho] at hi
    case error defect =>
      have ⟨hb, hc⟩ := hi
      have := hg.length_le
      have := h.pairs_le
      refine ⟨?_, hc⟩
      rw [Datum.cells_cons] at hb
      omega
    case ok r =>
      have ⟨e, hl, hi⟩ := hi
      refine ⟨.pair d e, by simpa [Datum.list] using hl, .element ?_ (h.gap hg) hi⟩
      refine hg.not_dot (opens_of_skipBlank hs) fun hc => ?_
      simpa [hc] using hdot

theorem marked_answers {name : String} {o : Outcome} (hm : Mark cs name cs') (h : Answers n cs' o) :
    Answers (n + 1) cs (marked name o) := by
  cases o
  case ok => exact ⟨cs, .none, .marked hm h⟩
  case error =>
    have := hm.length_lt
    exact ⟨Nat.le_trans h.cells_le (by omega), h.isSyntactic⟩

theorem list_answers {o : Outcome} (h : ListAnswers n [] cs o) : Answers (n + 1) ('(' :: cs) o := by
  cases o
  case ok =>
    have ⟨e, he, hi⟩ := h
    exact ⟨_, .none, he ▸ .list hi⟩
  case error =>
    refine ⟨Nat.le_trans h.cells_le ?_, h.isSyntactic⟩
    simp only [Datum.cells_nil, List.length_cons]
    omega

theorem literal_error {seen : List Char} {cause : Unreadable} (h : literal seen cs = .error cause) :
    cause.isSyntactic := by
  fun_induction literal seen cs
  case case1 | case3 => cases h; rfl
  case case2 => cases h
  case case4 hi | case5 hi => exact hi h

-- The reader finds what the grammar derives.
theorem datum_answers : Answers n cs (datum n cs) := by
  induction n generalizing cs
  case zero =>
    rw [datum]
    split <;> exact ⟨Nat.zero_le _, rfl⟩
  case succ n hi =>
    rw [datum]
    split
    case h_1 => exact ⟨Nat.zero_le _, rfl⟩
    case h_2 c cs' hs =>
      refine Answers.gap ?_ (.of_skipBlank hs)
      have ho := opens_of_skipBlank hs
      simp only
      split
      case h_1 => exact list_answers (elements_answers fun _ => hi)
      case h_2 => exact ⟨Nat.zero_le _, rfl⟩
      case h_3 => exact marked_answers .quote hi
      case h_4 => exact marked_answers .quasiquote hi
      case h_5 => exact marked_answers .splice hi
      case h_6 hc =>
        refine marked_answers (.unquote fun h => ?_) hi
        obtain ⟨cs, rfl⟩ := List.head?_eq_some_iff.mp h
        exact hc cs rfl
      case h_7 =>
        split
        case h_1 hl =>
          obtain ⟨s, hs, rfl⟩ := literal_sound hl
          exact ⟨_, .none, .string hs⟩
        case h_2 hl => exact ⟨Nat.zero_le _, literal_error hl⟩
      case h_8 hopen hclose hquote hback hcomma hstring _ =>
        have hc : isDelimiter c = false := by
          simp only [isDelimiter, ho.not_blank, Bool.or_eq_false_iff, decide_eq_false_iff_not]
          exact ⟨⟨⟨⟨⟨⟨⟨trivial, hopen⟩, hclose⟩, hquote⟩, hback⟩, hcomma⟩, hstring⟩, ho.not_comment⟩
        rw [List.span_eq_takeWhile_dropWhile]
        exact ⟨_, .none, word_sound hc⟩

-- The reader finds a datum at the start of a text exactly if there is one.
theorem datum_eq_ok_iff : datum n cs = .ok (d, rest) ↔ Reads n cs d rest :=
  ⟨datum_answers.reads, Reads.datum_eq⟩

theorem next_eq_some_iff : next cs = .ok (some (d, rest)) ↔ Reads maxDepth cs d rest := by
  refine ⟨fun h => ?_, Reads.next_eq⟩
  unfold next at h
  split at h
  case isTrue => cases h
  case isFalse =>
    split at h <;> cases h
    case h_1 hr => exact datum_eq_ok_iff.mp hr

theorem next_eq_none_iff : next cs = .ok none ↔ Gap cs [] := by
  rw [← skipBlank_eq_nil_iff, ← List.isEmpty_iff]
  unfold next
  split
  case isTrue h => exact iff_of_true rfl h
  case isFalse h =>
    refine iff_of_false (fun hn => ?_) h
    split at hn <;> cases hn

theorem next_bounded (h : next cs = .error defect) : defect.Bounded (2 * cs.length) := by
  unfold next at h
  split at h
  case isTrue => cases h
  case isFalse =>
    split at h <;> cases h
    case h_2 he => exact datum_answers.bounded he

-- Positions

theorem foldl_utf8Size (n : Nat) (cs : List Char) :
    cs.foldl (fun n c => n + c.utf8Size) n = n + byteLength cs := by
  induction cs generalizing n
  case nil => rfl
  case cons c cs hi => rw [byteLength, List.foldl_cons, List.foldl_cons, hi, hi]; omega

theorem byteLength_cons : byteLength (c :: cs) = c.utf8Size + byteLength cs := by
  rw [byteLength, List.foldl_cons, foldl_utf8Size]
  omega

theorem byteLength_append : byteLength (cs ++ cs') = byteLength cs + byteLength cs' := by
  rw [byteLength, List.foldl_append, foldl_utf8Size]
  rfl

theorem dropBytes_append : dropBytes (byteLength cs) (cs ++ rest) = some rest := by
  induction cs
  case nil => rw [byteLength, List.foldl_nil, dropBytes]; rfl
  case cons c cs hi =>
    have hc := c.utf8Size_pos
    rw [byteLength_cons]
    obtain ⟨n, hn⟩ := Nat.exists_eq_succ_of_ne_zero (n := c.utf8Size + byteLength cs) (by omega)
    have he : n + 1 - c.utf8Size = byteLength cs := by omega
    rw [hn, List.cons_append, dropBytes, if_pos (by omega), he, hi]

-- What is behind a datum is the end of the text that the datum is in.

theorem Gap.suffix (h : Gap cs rest) : rest <:+ cs := by
  induction h
  case none => exact List.suffix_rfl
  case blank hi => exact hi.trans (List.suffix_cons ..)
  case comment body cs _ _ _ hi =>
    have hb : cs <:+ body ++ '\n' :: cs := (List.suffix_cons ..).trans (List.suffix_append ..)
    exact hi.trans <| hb.trans (List.suffix_cons ..)
  case unended => exact List.nil_suffix

theorem Literal.suffix {s : List Char} (h : Literal cs s rest) : rest <:+ cs := by
  induction h
  case close => exact List.suffix_cons ..
  case escape hi => exact hi.trans <| .trans (List.suffix_cons ..) (List.suffix_cons ..)
  case plain hi => exact hi.trans (List.suffix_cons ..)

theorem Mark.suffix {name : String} (h : Mark cs name rest) : rest <:+ cs := by
  cases h
  case splice => exact .trans (List.suffix_cons ..) (List.suffix_cons ..)
  all_goals exact List.suffix_cons ..

theorem Items.suffix (hp : ∀ cs d rest, part cs d rest → rest <:+ cs)
    (h : Items part started cs d rest) : rest <:+ cs := by
  induction h
  case close h => exact .trans (List.suffix_cons ..) h.suffix
  case element h _ hi => exact hi.trans (hp _ _ _ h)
  case tail hd h hc =>
    refine .trans (List.suffix_cons ..) <| hc.suffix.trans <| (hp _ _ _ h).trans ?_
    exact .trans (List.suffix_cons ..) hd.left.suffix

theorem Reads.suffix (h : Reads n cs d rest) : rest <:+ cs := by
  induction n generalizing cs d rest
  case zero => cases h
  case succ hi =>
    have ⟨cs', hg, hf⟩ := h
    refine .trans ?_ hg.suffix
    cases hf
    case list h => exact (h.suffix fun _ _ _ => hi).trans (List.suffix_cons ..)
    case marked hm h => exact (hi h).trans hm.suffix
    case string h => exact h.suffix.trans (List.suffix_cons ..)
    case word => exact List.suffix_append ..

theorem nextAt_append (before : List Char) : nextAt (before ++ rest) (byteLength before) =
    match next rest with
    | .ok none => .ok none
    | .ok (some (d, behind)) =>
      .ok (some (d, byteLength before + (byteLength rest - byteLength behind)))
    | .error defect => .error defect := by
  rcases hn : next rest with _ | _ | _ <;> simp [nextAt, dropBytes_append, hn]

end Reader
end StepLisp
