import StepLisp.Symbol

namespace StepLisp.SymbolTable

variable {t t' t'' : SymbolTable} {x y : Symbol} {name a b : String} {names : List String}

theorem eq_of_names (hx : t.names[x.id]? = some name) (hy : t.names[y.id]? = some name) : x = y :=
  Option.some.inj <| (t.agree.mpr hx).symm.trans (t.agree.mpr hy)

theorem name_of_names (h : t.names[x.id]? = some name) : t.name x = name := by
  rw [SymbolTable.name, Array.getD_eq_getD_getElem?, h, Option.getD_some]

-- The numbers of symbols are those below the size of the table.
theorem lt_size_iff : x.id < t.size ↔ ∃ name, t.lookup? name = some x := by
  simp only [lookup?, t.agree, size]
  constructor
  case mp => exact fun h => ⟨_, Array.getElem?_eq_getElem h⟩
  case mpr => exact fun ⟨_, h⟩ => (Array.getElem?_eq_some_iff.mp h).choose

-- Interning

theorem intern_of_names (h : t.names[x.id]? = some name) : t.intern name = (x, t) := by
  unfold intern
  split
  case h_1 y hy => rw [eq_of_names h (t.agree.mp hy)]
  case h_2 hn => cases hn.symm.trans (t.agree.mpr h)

theorem names_intern : (t.intern name).2.names[(t.intern name).1.id]? = some name := by
  unfold intern
  split
  case h_1 hx => exact t.agree.mp hx
  case h_2 => simp

theorem names_intern_of_names {k : Nat} {name' : String} (h : t.names[k]? = some name') :
    (t.intern name).2.names[k]? = some name' := by
  unfold intern
  split
  case h_1 => exact h
  case h_2 =>
    have hk := (Array.getElem?_eq_some_iff.mp h).choose
    simpa [Array.getElem?_push, Nat.ne_of_lt hk] using h

theorem internAll_eq_self (h : ∀ name ∈ names, ∃ x : Symbol, t.names[x.id]? = some name) :
    t.internAll names = t := by
  induction names
  case nil => rfl
  case cons name names hi =>
    have ⟨⟨x, hx⟩, hn⟩ := List.forall_mem_cons.mp h
    rw [internAll, List.foldl_cons, intern_of_names hx]
    exact hi hn

theorem lookup?_intern_of_ne (h : a ≠ b) : (t.intern a).2.lookup? b = t.lookup? b := by
  unfold intern
  split
  case h_1 => rfl
  case h_2 => simp [lookup?, Std.TreeMap.getElem?_insert, h]

-- Calls

-- What a table can be asked for.
inductive Call
  | intern (name : String)
  | lookup (name : String)

-- The table that a call leaves behind.
def Call.run (t : SymbolTable) : Call → SymbolTable
  | .intern name => (t.intern name).2
  | .lookup _ => t

def after (t : SymbolTable) (calls : List Call) : SymbolTable :=
  calls.foldl Call.run t

variable {calls : List Call}

-- A call changes no entry that is there.
theorem names_run {c : Call} {k : Nat} (h : t.names[k]? = some name) :
    (c.run t).names[k]? = some name := by
  cases c
  case intern => exact names_intern_of_names h
  case lookup => exact h

theorem names_after {k : Nat} (h : t.names[k]? = some name) :
    (t.after calls).names[k]? = some name := by
  induction calls generalizing t
  case nil => exact h
  case cons c calls hi => exact hi (names_run h)

theorem lookup?_after (h : t.lookup? a = some x) : (t.after calls).lookup? a = some x :=
  (t.after calls).agree.mpr (names_after (t.agree.mp h))

-- A name is in the table if it was there or has been interned since.
theorem lookup?_after_iff : (t.after calls).lookup? a = some x ↔ t.lookup? a = some x ∨
    ∃ before rest, calls = before ++ .intern a :: rest ∧ ((t.after before).intern a).1 = x := by
  constructor
  case mpr =>
    rintro (h | ⟨before, rest, rfl, rfl⟩)
    case inl => exact lookup?_after h
    case inr =>
      rw [after, List.foldl_append]
      change (((t.after before).intern a).2.after rest).lookup? a = _
      exact lookup?_after <| SymbolTable.agree _ |>.mpr names_intern
  case mp =>
    intro h
    induction calls generalizing t
    case nil => exact .inl h
    case cons c calls hi =>
      replace h := hi h
      rcases h with h | ⟨before, rest, rfl, hx⟩
      case inr => exact .inr ⟨c :: before, rest, rfl, hx⟩
      case inl =>
        cases c
        case lookup => exact .inl h
        case intern b =>
          by_cases hb : b = a
          case neg => exact .inl (lookup?_intern_of_ne hb ▸ h)
          case pos =>
            subst hb
            exact .inr ⟨[], calls, rfl, eq_of_names names_intern ((t.intern b).2.agree.mp h)⟩

-- Two names have the same symbol only if they are the same.
theorem intern_after_eq_iff :
    (t.intern a).1 = (((t.intern a).2.after calls).intern b).1 ↔ a = b := by
  have ha : ((t.intern a).2.after calls).names[(t.intern a).1.id]? = some a :=
    names_after names_intern
  constructor
  case mp =>
    intro h
    have hb := @names_intern ((t.intern a).2.after calls) b
    rw [← h] at hb
    exact Option.some.inj ((names_intern_of_names ha).symm.trans hb)
  case mpr =>
    rintro rfl
    rw [intern_of_names ha]

-- One table has become the other.
def Becomes (t t' : SymbolTable) : Prop :=
  ∃ calls, t' = t.after calls

namespace Becomes

theorem refl (t : SymbolTable) : t.Becomes t :=
  ⟨[], rfl⟩

theorem trans (h : t.Becomes t') (h' : t'.Becomes t'') : t.Becomes t'' := by
  obtain ⟨calls, rfl⟩ := h
  obtain ⟨calls', rfl⟩ := h'
  exact ⟨calls ++ calls', (List.foldl_append ..).symm⟩

theorem intern : t.Becomes (t.intern name).2 :=
  ⟨[.intern name], rfl⟩

theorem internAll : t.Becomes (t.internAll names) := by
  induction names generalizing t
  case nil => exact refl t
  case cons hi => exact intern.trans hi

end Becomes

end StepLisp.SymbolTable
