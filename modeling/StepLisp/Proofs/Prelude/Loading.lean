import StepLisp.Proofs.Prelude.Library

namespace StepLisp

open Machine

-- Whether a value stands for a datum.
def Store.spells (s : Store) (sym : String → Symbol) : Datum → Value → Bool
  | .nil, .nil => true
  | .int n, .int k => n = k
  | .symbol name, .symbol x => x = sym name
  | .pair d e, .pair id =>
    match s.object? id.ref with
    | some (.cell c) => s.spells sym d c.car && s.spells sym e c.cdr
    | _ => false
  | _, _ => false

theorem Store.spells_sound {s : Store} {lib : Library} {d : Datum} {v : Value}
    (hc : ∀ id : PairId, id.index < s.totalCells → id ∈ lib.code) (h : s.spells lib.sym d v) :
    s.Spells lib v d := by
  induction d generalizing v
  case pair d e hd he =>
    cases v
    case pair id =>
      unfold Store.spells at h
      split at h
      case h_1 c ho =>
        have ⟨hd', he'⟩ := Bool.and_eq_true_iff.mp h
        have hlt := (Array.getElem?_eq_some_iff.mp (cells_of_object? ho).right).choose
        exact .pair (hc id hlt) ho (hd hd') (he he')
      case h_2 => cases h
    all_goals cases h
  all_goals cases v
  case nil.nil => exact .nil
  case int.int n k =>
    cases of_decide_eq_true h
    exact .int n
  case symbol.symbol name x =>
    cases of_decide_eq_true h
    exact .symbol name
  all_goals cases h

namespace Library

variable {m : Machine} {f : Frame}

-- The library of a machine, if it has one.
def ofMachine (m : Machine) : Library where
  sym name := (m.image.symbols.lookup? name).getD .ampersand
  proc name :=
    match m.image.store.lookup? m.global ((m.image.symbols.lookup? name).getD .ampersand) with
    | .ok (some (.closure id)) => id
    | _ => ⟨0⟩
  code := (List.range m.image.store.totalCells).map fun i => ⟨i⟩

theorem mem_code (id : PairId) (hlt : id.index < m.image.store.totalCells) :
    id ∈ (ofMachine m).code :=
  List.mem_map.mpr ⟨id.index, List.mem_range.mpr hlt, rfl⟩

theorem lookup?_eq_sym {name : String} (h : (m.image.symbols.lookup? name).isSome) :
    m.image.symbols.lookup? name = some ((ofMachine m).sym name) := by
  have ⟨x, hx⟩ := Option.isSome_iff_exists.mp h
  rw [hx]
  exact congrArg some (congrArg (·.getD .ampersand) hx).symm

-- Whether a builtin is bound to its name.
def bindsBuiltin (m : Machine) (f : Frame) (b : Builtin) : Bool :=
  match f.get? ((ofMachine m).sym b.name) with
  | some (.builtin id) => id = ⟨Builtin.all.toList.idxOf b⟩
  | _ => false

-- Whether a name is bound to a procedure that is like its definition.
def bindsDefinition (m : Machine) (f : Frame) (d : Definition) : Bool :=
  match f.get? ((ofMachine m).sym d.name) with
  | some (.closure id) =>
    match m.image.store.object? id.ref with
    | some (.closure c) => id = (ofMachine m).proc d.name && c.env = m.global && !c.special &&
      m.image.store.spells (ofMachine m).sym (.list (d.params.map .symbol) .nil) c.params &&
      m.image.store.spells (ofMachine m).sym d.body c.body
    | _ => false
  | _ => false

def isLoaded (m : Machine) : Bool :=
  match m.image.store.frame m.global with
  | .ok f => f.parent.isNone && (ofMachine m).sym "&" = .ampersand &&
    names.all (fun name => (m.image.symbols.lookup? name).isSome) &&
    builtins.all (bindsBuiltin m f) && Definition.all.all (bindsDefinition m f)
  | .error _ => false

theorem get?_of_bindsBuiltin {b : Builtin} (h : bindsBuiltin m f b) :
    f.get? ((ofMachine m).sym b.name) = some b.value := by
  unfold bindsBuiltin at h
  split at h
  case h_1 hb => rw [hb, of_decide_eq_true h, Builtin.value]
  case h_2 => cases h

theorem exists_of_bindsDefinition {d : Definition} (h : bindsDefinition m f d) :
    f.get? ((ofMachine m).sym d.name) = some ((ofMachine m).value d) ∧
    ∃ params body, m.image.store.object? ((ofMachine m).proc d.name).ref =
        some (.closure ⟨params, body, m.global, false⟩) ∧
      m.image.store.Spells (ofMachine m) params (.list (d.params.map .symbol) .nil) ∧
      m.image.store.Spells (ofMachine m) body d.body := by
  unfold bindsDefinition at h
  split at h
  case h_2 => cases h
  case h_1 id hid =>
    split at h
    case h_2 => cases h
    case h_1 c ho =>
      obtain ⟨params, body, env, special⟩ := c
      simp only [Bool.and_eq_true, decide_eq_true_eq, Bool.not_eq_true'] at h
      obtain ⟨⟨⟨⟨rfl, rfl⟩, rfl⟩, hp⟩, hb⟩ := h
      exact ⟨hid, params, body, ho, Store.spells_sound mem_code hp, Store.spells_sound mem_code hb⟩

theorem loaded_of_isLoaded (h : isLoaded m) : (ofMachine m).Loaded m := by
  unfold isLoaded at h
  split at h
  case h_2 => cases h
  case h_1 f hf =>
    simp only [Bool.and_eq_true, decide_eq_true_eq, List.all_eq_true,
      Option.isNone_iff_eq_none] at h
    obtain ⟨⟨⟨⟨hp, hmark⟩, hnames⟩, hb⟩, hd⟩ := h
    have hchain : m.image.store.Chain m.global [m.global] := .last hf hp
    have hget {b : String × Value} (hm : b ∈ (ofMachine m).bindings) :
        f.get? ((ofMachine m).sym b.1) = some b.2 := by
      rcases List.mem_append.mp hm with hm | hm
      · obtain ⟨b, hmem, rfl⟩ := List.mem_map.mp hm
        exact get?_of_bindsBuiltin (hb b hmem)
      · obtain ⟨d, hmem, rfl⟩ := List.mem_map.mp hm
        exact (exists_of_bindsDefinition (hd d hmem)).left
    refine ⟨hmark, fun hn => lookup?_eq_sym (hnames _ hn), fun hm =>
      ⟨(exists_of_bindsDefinition (hd _ hm)).right, ⟨_, hchain⟩, fun name v hv => ⟨_, hchain, ?_⟩⟩⟩
    obtain ⟨l₁, l₂, hl, -⟩ := List.lookup_eq_some_iff.mp hv
    have hg := hget (b := (name, v)) (by simp [hl])
    rw [List.findSome?_cons, Store.binding?_of_frame hf, hg]

-- Whether the machine has `let`, too.
def hasLet (m : Machine) : Bool :=
  isLoaded m && letNames.all (fun name => (m.image.symbols.lookup? name).isSome) &&
    match m.image.store.frame m.global, m.image.store.object? ((ofMachine m).proc "let").ref with
    | .ok f, some (.closure c) => bindsDefinition m f .cadr && c.special &&
      m.image.store.spells (ofMachine m).sym
        (.list (["bindings"].map .symbol) (.list [.symbol "&", .symbol "body"] .nil)) c.params &&
      m.image.store.spells (ofMachine m).sym Definition.letBody c.body
    | _, _ => false

theorem hasLet_sound (h : hasLet m) : (ofMachine m).HasLet m := by
  obtain ⟨⟨hl, hnames⟩, h⟩ := by simpa only [hasLet, Bool.and_eq_true, List.all_eq_true] using h
  have hl := loaded_of_isLoaded hl
  split at h
  case h_2 => cases h
  case h_1 f c hf ho =>
    obtain ⟨params, body, env, special⟩ := c
    simp only [Bool.and_eq_true] at h
    obtain ⟨⟨⟨hcadr, rfl⟩, hp⟩, hb⟩ := h
    exact ⟨hl, fun hn => lookup?_eq_sym (hnames _ hn),
      ⟨(exists_of_bindsDefinition hcadr).right, hl.scope⟩,
      params, body, env, ho, Store.spells_sound mem_code hp, Store.spells_sound mem_code hb⟩

end Library

-- Whether a name means a procedure.
def Store.means (s : Store) (e : FrameId) (x : Symbol) (v : Value) : Bool :=
  match s.lookup? e x, v with
  | .ok (some (.builtin i)), .builtin j => i = j
  | .ok (some (.closure i)), .closure j => i = j
  | _, _ => false

theorem Store.lookup?_of_means {s : Store} {e : FrameId} {x : Symbol} {v : Value}
    (h : s.means e x v) :
    s.lookup? e x = .ok (some v) := by
  unfold Store.means at h
  split at h
  case h_1 hl | h_2 hl =>
    cases of_decide_eq_true h
    exact hl
  case h_3 => cases h

theorem Store.scope_of_means {s : Store} {lib : Library} {e : FrameId} {es : List FrameId}
    {ρ : Bindings}
    (hc : s.Chain e es) (h : ρ.all fun b => s.means e (lib.sym b.1) b.2) : s.Scope lib e ρ where
  exists_chain := ⟨es, hc⟩
  sees name v hv := by
    obtain ⟨l₁, l₂, hl, -⟩ := List.lookup_eq_some_iff.mp hv
    have hm := lookup?_of_means (List.all_eq_true.mp h (name, v) (by simp [hl]))
    rw [lookup?_of_chain hc] at hm
    exact ⟨es, hc, Except.ok.inj hm⟩

section Sessions

open Library

-- A list is traversed while an outer call waits.
def sample : String :=
  "(define xs '(1 ())) (cons 0 (map null? xs))"

def mapsNull (m : Machine) : Bool :=
  match Stage.next^[10] (.reading (Reader.walk sample.toList) m) with
  | .running _ _ (.apply (.closure id)) m =>
    isLoaded m && id = (ofMachine m).proc "map" && m.control.cont.refs.isEmpty &&
      320 ≤ m.image.store.room &&
      match m.image.store.frame m.global, m.image.store.toList? m.control.argl with
      | .ok f, some [.builtin b, .pair i] => b = ⟨Builtin.all.toList.idxOf .isNull⟩ &&
        (m.image.store.toList? (.pair i)).map List.length = some 2 &&
        match f.get? ((m.image.symbols.lookup? "xs").getD .ampersand) with
        | some (.pair j) => j = i
        | _ => false
      | _, _ => false
  | _ => false

-- The procedure changes a variable of the procedure that calls it.
def mapsEval (m : Machine) : Bool :=
  match evalText "(map eval '((set! acc '(9)) 2))" m with
  | .ok v m =>
    match m.image.store.toList? v with
    | some [.int i, .nil, .int j] => i = 9 && j = 2
    | _ => false
  | .error .. => false

-- The expression of a binding is a variable of the procedure around it.
def letSample : String :=
  "((lambda (x) (let ((a x)) a)) 5)"

def bindsArgument (m : Machine) : Bool :=
  match Stage.next^[6] (.reading (Reader.walk letSample.toList) m) with
  | .running _ _ .eval m => hasLet m && 347 ≤ m.image.store.room &&
    m.image.store.spells (ofMachine m).sym
      (.call "let" [.list [.list [.symbol "a", .symbol "x"] .nil] .nil, .symbol "a"])
        m.control.exp &&
    (ofMachine m).letBindings.all
      (fun b => m.image.store.means m.control.env ((ofMachine m).sym b.1) b.2) &&
    match m.image.store.frame m.control.env with
    | .ok f => f.parent = some m.global &&
      match f.get? ((ofMachine m).sym "x") with
      | some (.int n) => n = 5
      | _ => false
    | .error _ => false
  | _ => false

-- Each is evaluated on its own, which takes less memory.
set_option maxRecDepth 20000 in
theorem exists_new_mapsNull : ∃ m, Machine.new { maxSteps := 2000 } default {} = .ok m ∧
    mapsNull m :=
  exists_new_of rfl (by decide +kernel)

set_option maxRecDepth 20000 in
theorem exists_new_mapsEval : ∃ m, Machine.new { maxSteps := 2000 } default {} = .ok m ∧
    mapsEval m :=
  exists_new_of rfl (by decide +kernel)

set_option maxRecDepth 20000 in
theorem exists_new_bindsArgument : ∃ m, Machine.new { maxSteps := 2000 } default {} = .ok m ∧
    bindsArgument m :=
  exists_new_of rfl (by decide +kernel)

end Sessions
end StepLisp
