import StepLisp.Proofs.Prelude.Procedure

namespace StepLisp

-- A call of `lambda` that makes a procedure.
def Datum.lambda (params : List String) (body : Datum) : Datum :=
  .call "lambda" [.list (params.map .symbol) .nil, body]

theorem SymbolTable.lookup?_inj {t : SymbolTable} {x y : String} {s : Symbol}
    (hx : t.lookup? x = some s) (hy : t.lookup? y = some s) : x = y :=
  Option.some.inj <| (t.agree.mp hx).symm.trans (t.agree.mp hy)

structure Definition where
  name : String
  params : List String
  body : Datum

namespace Definition

open Datum (symbol call lambda)

def foldl : Definition where
  name := "foldl"
  params := ["f", "acc", "xs"]
  body := call "if" [call "null?" [symbol "xs"], symbol "acc",
    call "foldl" [symbol "f", call "f" [symbol "acc", call "car" [symbol "xs"]],
      call "cdr" [symbol "xs"]]]

def length : Definition where
  name := "length"
  params := ["xs"]
  body := call "foldl" [lambda ["n", "_"] (call "+" [symbol "n", .int 1]), .int 0, symbol "xs"]

-- The step of a fold that puts the elements in front of a list.
def push : Datum :=
  lambda ["acc", "x"] (call "cons" [symbol "x", symbol "acc"])

def reverse : Definition where
  name := "reverse"
  params := ["xs"]
  body := call "foldl" [push, .nil, symbol "xs"]

def append : Definition where
  name := "append"
  params := ["a", "b"]
  body := call "foldl" [push, symbol "b", call "reverse" [symbol "a"]]

def map : Definition where
  name := "map"
  params := ["f", "xs"]
  body := call "reverse" [call "foldl" [
    lambda ["acc", "x"] (call "cons" [call "f" [symbol "x"], symbol "acc"]), .nil, symbol "xs"]]

def filter : Definition where
  name := "filter"
  params := ["keep?", "xs"]
  body := call "reverse" [call "foldl" [
    lambda ["acc", "x"]
      (call "if" [call "keep?" [symbol "x"], call "cons" [symbol "x", symbol "acc"],
      symbol "acc"]), .nil, symbol "xs"]]

def cadr : Definition where
  name := "cadr"
  params := ["x"]
  body := call "car" [call "cdr" [symbol "x"]]

def all : List Definition :=
  [foldl, length, reverse, append, map, filter]

-- The call of `lambda` that `let` makes.
def lambdaOf : Datum :=
  call "cons" [call "quote" [symbol "lambda"],
    call "cons" [call "map" [symbol "car", symbol "bindings"],
    symbol "body"]]

-- What `let` evaluates in a frame of its own.
def letBody : Datum :=
  call "eval" [call "cons" [lambdaOf, call "map" [symbol "cadr", symbol "bindings"]], .int 1]

end Definition

namespace Library

variable {lib : Library} {m m' : Machine} {held : List Ref} {d : Definition} {name : String}

-- The builtins that the definitions use.
def builtins : List Builtin :=
  [.if, .lambda, .cons, .car, .cdr, .isNull, .add]

-- Every name in the definitions, and the mark that is none of them.
def names : List String :=
  "&" :: builtins.map Builtin.name ++ Definition.all.map Definition.name ++
    ["f", "acc", "xs", "n", "_", "x", "a", "b", "keep?"]

def value (lib : Library) (d : Definition) : Value :=
  .closure (lib.proc d.name)

-- What the names are bound to in the global frame.
def bindings (lib : Library) : Bindings :=
  builtins.map (fun b => (b.name, b.value)) ++
    Definition.all.map fun d => (d.name, lib.value d)

-- A machine has the procedures of a library.
structure Loaded (lib : Library) (m : Machine) : Prop where
  mark : lib.sym "&" = .ampersand
  table {name : String} : name ∈ names → m.image.symbols.lookup? name = some (lib.sym name)
  closes {d : Definition} : d ∈ Definition.all →
    m.image.store.Closes lib (lib.proc d.name) d.params d.body m.global lib.bindings

theorem lookup_bindings (hd : d ∈ Definition.all) :
    lib.bindings.lookup d.name = some (lib.value d) := by
  revert d
  simp only [Definition.all, List.forall_mem_cons]
  exact ⟨rfl, rfl, rfl, rfl, rfl, rfl, List.forall_mem_nil _⟩

theorem fst_mem_names {b : String × Value} (hb : b ∈ lib.bindings) : b.1 ∈ names := by
  have hm : b.1 ∈ lib.bindings.map Prod.fst := List.mem_map_of_mem hb
  have he : lib.bindings.map Prod.fst = builtins.map Builtin.name ++
      Definition.all.map Definition.name := by
    simp [bindings, Function.comp_def]
  rw [he] at hm
  exact List.mem_append_left _ (List.mem_cons_of_mem _ hm)

-- What the names mean in a frame of a procedure of the library.
def inside (lib : Library) (params : List String) (args : List Value) : Bindings :=
  (params.zip args).reverse ++ lib.bindings

theorem params_subset_names (hd : d ∈ Definition.all) :
    ∀ name ∈ d.params, name ∈ names ∧ name ≠ "&" := by
  revert d
  decide

theorem nodup_params (hd : d ∈ Definition.all) : d.params.Nodup := by
  revert d
  decide

-- Every argument is what some name means.
theorem exists_lookup (lib : Library) {params : List String} {vs : List Value} {v : Value}
    (hp : params.Nodup)
    (hl : params.length = vs.length) (hv : v ∈ vs) :
    ∃ name, (lib.inside params vs).lookup name = some v := by
  suffices h : ∃ name, (params.zip vs).reverse.lookup name = some v by
    have ⟨name, h⟩ := h
    exact ⟨name, by rw [inside, List.lookup_append, h, Option.some_or]⟩
  induction params generalizing vs
  case nil =>
    cases List.length_eq_zero_iff.mp hl.symm
    cases hv
  case cons x params hi =>
    have ⟨hx, hp⟩ := List.nodup_cons.mp hp
    obtain _ | ⟨u, vs⟩ := vs
    · cases hv
    simp only [List.zip_cons_cons, List.reverse_cons, List.lookup_append]
    rcases List.mem_cons.mp hv with rfl | hv
    · have hn : (params.zip vs).reverse.lookup x = none := by
        refine List.lookup_eq_none_iff.mpr fun b hb => ?_
        have hb := (List.of_mem_zip (List.mem_reverse.mp hb)).left
        simpa using fun he : x = b.1 => hx (he ▸ hb)
      exact ⟨x, by rw [hn, Option.none_or, List.lookup_cons_self]⟩
    · have ⟨name, h⟩ := hi hp (Nat.succ.inj hl) hv
      exact ⟨name, by rw [h, Option.some_or]⟩

namespace Loaded

theorem scope (hl : lib.Loaded m) : m.image.store.Scope lib m.global lib.bindings :=
  (hl.closes List.mem_cons_self).scope

theorem injOn (hl : lib.Loaded m) : Set.InjOn lib.sym {name | name ∈ names} := by
  intro x hx y hy he
  have hx := hl.table hx
  have hy := hl.table hy
  rw [← he] at hy
  exact SymbolTable.lookup?_inj hx hy

theorem ne_ampersand (hl : lib.Loaded m) (hn : name ∈ names) (hne : name ≠ "&") :
    lib.sym name ≠ .ampersand := fun he =>
  hne <| hl.injOn hn (List.mem_cons_self : "&" ∈ names) (he.trans hl.mark.symm)

theorem ordinary (hl : lib.Loaded m) (hd : d ∈ Definition.all) :
    Machine.Ordinary m.image.store (lib.value d) :=
  (hl.closes hd).ordinary

theorem leaves (hl : lib.Loaded m) {h : Nat} (hm : Machine.Leaves held h m m')
    (hs : m.image.store.Sound) (hg : m.image.store.Refers held m.global.ref) : lib.Loaded m' where
  mark := hl.mark
  table hn := by
    have hsym : m'.image.symbols = m.image.symbols := congrArg (·.image.symbols) hm.world
    rw [hsym, hl.table hn]
  closes hd := by
    rw [hm.global_eq]
    exact (hl.closes hd).keeps ((hl.scope.sees _ (lookup_bindings hd)).holds hs hg) hm.keeps

end Loaded

-- The names in the definition, and the mark among its parameters.
def letNames : List String :=
  ["&", "bindings", "body", "let", "eval", "quote", "cons", "map", "car", "cadr", "lambda"]

-- What the names have to mean where `let` is called.
def letBindings (lib : Library) : Bindings :=
  [("let", .closure (lib.proc "let")), ("eval", Builtin.eval.value), ("quote", Builtin.quote.value),
    ("cons", Builtin.cons.value), ("map", lib.value .map), ("car", Builtin.car.value),
    ("cadr", .closure (lib.proc "cadr")), ("lambda", Builtin.lambda.value)]

-- A machine has `let` and what it needs.
structure HasLet (lib : Library) (m : Machine) : Prop extends lib.Loaded m where
  known {name : String} : name ∈ letNames → m.image.symbols.lookup? name = some (lib.sym name)
  cadr : m.image.store.Closes lib (lib.proc "cadr") ["x"] Definition.cadr.body m.global lib.bindings
  form : m.image.store.IsForm lib (lib.proc "let") ["bindings"] "body" Definition.letBody

namespace HasLet

theorem injOn_letNames (hl : lib.HasLet m) : Set.InjOn lib.sym {name | name ∈ letNames} := by
  intro x hx y hy he
  have hx := hl.known hx
  have hy := hl.known hy
  rw [← he] at hy
  exact SymbolTable.lookup?_inj hx hy

theorem isSpecial_let (hl : lib.HasLet m) :
    Machine.isSpecial m.image.store (.closure (lib.proc "let")) = .ok true := by
  obtain ⟨params, code, g, ho, -⟩ := hl.form
  simp only [Machine.isSpecial, Store.closure_of_object? ho]
  rfl

end HasLet

open Machine

variable {p : Place} {params : List String} {vs : List Value} {v : Value} {h level : Nat}

-- A procedure of the library has been entered.
structure Active (lib : Library) (params : List String) (vs : List Value) (p : Place)
    (m : Machine) :
    Prop where
  loaded : lib.Loaded m
  global : m.global = p.global
  known : ∀ name ∈ params, name ∈ names
  framed : m.image.store.Framed lib p.env params vs p.global

namespace Active

theorem scope (ha : lib.Active params vs p m) :
    m.image.store.Scope lib p.env (lib.inside params vs) := by
  have hsc := ha.loaded.scope
  rw [ha.global] at hsc
  exact ha.framed.scope hsc ha.loaded.injOn ha.known fun b hb => fst_mem_names hb

theorem leaves (ha : lib.Active params vs p m) (hm : Leaves held h m m') (hs : m.image.store.Sound)
    (hh : ∀ r ∈ p.held, m.image.store.Refers held r) : lib.Active params vs p m' where
  loaded := ha.loaded.leaves hm hs (hh _ (by simp [Place.held, Place.waiting, ha.global]))
  global := hm.global_eq.trans ha.global
  known := ha.known
  framed := ha.framed.keeps (hh _ List.mem_cons_self) hm.keeps

theorem allocates {c : Nat} (ha : lib.Active params vs p m) (hm : Allocates p.held c h m m')
    (hs : m.image.store.Sound) : lib.Active params vs p m' :=
  ha.leaves hm.toLeaves hs fun _ => .root

theorem holds (ha : lib.Active params vs p m) (hs : m.image.store.Sound) (name : String)
    (hv : (lib.inside params vs).lookup name = some v) : m.image.store.Holds p.held v :=
  (ha.scope.sees name hv).holds hs (.root List.mem_cons_self)

-- The frame holds the arguments.
theorem refers (ha : lib.Active params vs p m) (hs : m.image.store.Sound) (hp : params.Nodup)
    (hl : params.length = vs.length) :
    ∀ r ∈ p.waiting ++ vs.flatMap Value.refs, m.image.store.Refers p.held r := by
  intro r hr
  rcases List.mem_append.mp hr with hr | hr
  · exact .root (Place.waiting_subset_held hr)
  · obtain ⟨v, hv, hr⟩ := List.mem_flatMap.mp hr
    obtain ⟨name, hv⟩ := lib.exists_lookup hp hl hv
    exact ha.holds hs name hv r hr

end Active

theorem Loaded.enter (hl : lib.Loaded m) (hd : d ∈ Definition.all)
    (hg : m.Going (.apply (lib.value d))) (hm : m.ToApply vs p) (hn : d.params.length = vs.length)
    (hv : p.slots.length ≠ level) :
    Passes level (p.waiting ++ vs.flatMap Value.refs) p.slots 0 h (.apply (lib.value d)) m .eval
      fun m' =>
      ∃ e, m'.ToEval lib d.body { p with env := e } ∧
        lib.Active d.params vs { p with env := e } m' := by
  refine (hm.enter hg (fun r hr => hm.refers hr) (hl.closes hd) hn hv fun name hn =>
    ?_).frame.imp ?_
  · have ⟨hn, hne⟩ := params_subset_names hd name hn
    exact hl.ne_ampersand hn hne
  · rintro m' ⟨⟨e, hm', hf, -⟩, ha⟩
    rw [hm.global] at hf
    refine ⟨e, hm', hl.leaves ha.toLeaves hg.sound (.root ?_), hm'.global,
      fun name hn => (params_subset_names hd name hn).left, hf⟩
    rw [hm.global]
    exact List.mem_append_left _ List.mem_cons_self

-- What is known of arguments that are held.
theorem holds_argument {s : Store} (p : Place) (vs : List Value) (hv : v ∈ vs) :
    s.Holds (p.waiting ++ vs.flatMap Value.refs) v :=
  Store.holds_of_subset fun _ hr => List.mem_append_right _ (List.mem_flatMap.mpr ⟨v, hv, hr⟩)

end Library
end StepLisp
