import StepLisp.Proofs.Prelude.Fold

namespace StepLisp

open Machine

variable {lib : Library} {m m' : Machine} {p q : Place} {a b l x : Value} {e : FrameId}
  {id : ClosureId}
variable {held held' : List Ref} {σ : List Slot} {c h level spare : Nat} {next next' next'' : Step}
variable {params ns : List String} {us vs : List Value} {ids : List PairId} {d i t : Datum}
variable {ops : List Datum} {ρ : Bindings}

theorem Word.exists_int64?_succ {k : Int64} {n : Nat} (hk : k.toInt = n) (hn : n + 1 < 2 ^ 63) :
    ∃ k', Word.int64? (k.toInt + 1) = some k' ∧ k'.toInt = (n + 1 : Nat) := by
  have hle : (-0x8000000000000000 : Int) ≤ k.toInt + 1 ∧
    k.toInt + 1 ≤ 0x7fffffffffffffff := by omega
  refine ⟨_, if_pos hle, ?_⟩
  rw [Int64.toInt_ofInt_of_le (by omega) (by omega)]
  omega

-- A list that ends in `w`, of pairs that nothing else which is held refers to.
def Store.Fresh (s : Store) (held : List Ref) (v : Value) (vs : List Value) (w : Value) : Prop :=
  ∃ ids, s.Row v ids vs w ∧ ∀ id ∈ ids, ¬s.Refers held id.ref

theorem Library.fst_mem_inside (hp : ∀ name ∈ params, name ∈ names) :
    ∀ b ∈ lib.inside params us, b.1 ∈ names := by
  intro b hb
  rcases List.mem_append.mp hb with hb | hb
  · exact hp _ (List.of_mem_zip (List.mem_reverse.mp hb)).left
  · exact fst_mem_names hb

namespace Machine

-- Nobody but the procedure itself holds on to its environment.
theorem Passes.inside {P : Machine → Prop}
    (hs : Passes level { q with env := e }.held q.slots c h next m next' P) :
    Passes level q.waiting q.slots c h next m next' P :=
  hs.mono (List.suffix_refl _) (fun _ hr => .root (List.mem_cons_of_mem _ hr)) (Nat.le_refl _)
    (Nat.le_refl _)

-- Closures

-- A call of `foldl` first makes the closure that it is to use.
theorem ToEval.close (hg : m.Going .eval)
    (hm : m.ToEval lib (.call "foldl" (.lambda ns d :: ops)) p)
    (ha : lib.Active params us p m)
    (hf : (lib.inside params us).lookup "foldl" = some (lib.value .foldl))
    (hb : (lib.inside params us).lookup "lambda" = some Builtin.lambda.value)
    (hh : p.slots.length + 9 ≤ h) (hl : p.slots.length + 6 ≠ level) :
    Passes level p.held p.slots 0 h .eval m .evalOperand fun m' => ∃ id rest,
      m'.With (.closure id) (p.operand (lib.value .foldl) [] rest) ∧
      m'.image.store.Spells lib rest (.list ops .nil) ∧
      m'.image.store.Closes lib id ns d p.env (lib.inside params us) := by
  refine (hm.operand [] [] hg rfl ha.scope hf (ha.loaded.ordinary List.mem_cons_self) .nil
    (by simp; omega)).bind 0 (fun m₁ ha₁ hg₁ hm₁ => ?_) (Nat.le_refl _)
  obtain ⟨rest, hrest, hm₁⟩ := hm₁
  have hlen : (p.operand (lib.value .foldl) [] rest).slots.length = p.slots.length + 6 :=
    Place.length_operand
  have hsc := (ha.allocates ha₁ hg.sound).scope
  refine (hm₁.lambda hg₁ hsc hb (by omega) (hlen ▸ hl)).frame.below Place.operand_above |>.imp ?_
  rintro m₂ ⟨⟨id, hm₂, hc⟩, ha₂⟩
  refine ⟨id, rest, hm₂, hrest.keeps (Store.holds_of_subset fun r hr => ?_) ha₂.keeps, hc⟩
  exact Place.waiting_subset_held <|
    Place.refs_subset_waiting (v := rest) (by simp [Place.operand]) hr

-- A call of `foldl` on a closure and two values that are found on the spot.
theorem ToEval.fold (hg : m.Going .eval) (hm : m.ToEval lib (.call "foldl" [.lambda ns d, i, t]) p)
    (ha : lib.Active params us p m)
    (hf : (lib.inside params us).lookup "foldl" = some (lib.value .foldl))
    (hb : (lib.inside params us).lookup "lambda" = some Builtin.lambda.value)
    (hi : i.value? (lib.inside params us) = some a) (ht : t.value? (lib.inside params us) = some l)
    (hr : 3 ≤ m.image.store.room) (hh : p.slots.length + 9 ≤ h) (hl : p.slots.length + 6 ≠ level) :
    Passes level p.held p.slots 3 h .eval m (.apply (lib.value .foldl)) fun m' => ∃ id,
      m'.ToApply [.closure id, a, l] p ∧
      m'.image.store.Closes lib id ns d p.env (lib.inside params us) := by
  refine (hm.close hg ha hf hb hh hl).bind 3 (fun m₁ ha₁ hg₁ hm₁ => ?_) (Nat.le_refl _)
  obtain ⟨id, rest, hm₁, hrest, hc⟩ := hm₁
  have hroom := ha₁.room
  refine ((hm₁.apply [a, l] hg₁ hm₁.subset_roots hrest (ha.allocates ha₁ hg.sound).scope
    (.cons hi (.cons ht .nil)) (by simp; omega) (by simp; omega)).frame.mono (List.suffix_refl _)
    (fun _ hr => .root (List.mem_append_left _ hr)) (Nat.le_refl _) (Nat.le_refl h)).imp ?_
  rintro m₂ ⟨hm₂, ha₂⟩
  exact ⟨id, hm₂, hc.keeps (Store.holds_of_subset (List.subset_append_right _ _)) ha₂.keeps⟩

-- A closure made in a procedure of the library is entered.
theorem ToApply.into (hg : m.Going (.apply (.closure id))) (hl : lib.Loaded m) (hm : m.ToApply vs q)
    (hc : m.image.store.Closes lib id ns d e (lib.inside params us)) (hn : ns.length = vs.length)
    (hns : ∀ name ∈ ns, name ∈ Library.names ∧ name ≠ "&")
    (hp : ∀ name ∈ params, name ∈ Library.names) (hv : q.slots.length ≠ level) :
    Passes level q.waiting q.slots 0 h (.apply (.closure id)) m .eval fun m' => ∃ e',
      m'.ToEval lib d { q with env := e' } ∧ m'.image.store.Framed lib e' ns vs e ∧
      m'.image.store.Scope lib e' ((ns.zip vs).reverse ++ lib.inside params us) := by
  have hroots : ∀ r ∈ q.waiting, m.image.store.Refers (m.roots (.apply (.closure id))) r :=
    fun r hr =>
    hm.refers (List.mem_append_left _ hr)
  refine (hm.enter hg hroots hc hn hv fun name hn => ?_).imp ?_
  · exact hl.ne_ampersand (hns name hn).left (hns name hn).right
  · rintro m' ⟨e', hm', hf, hsc⟩
    exact ⟨e', hm', hf, hf.scope hsc hl.injOn (fun name hn => (hns name hn).left)
      (Library.fst_mem_inside hp)⟩

-- The closure that puts an element in front of a list.
theorem ToApply.push (hg : m.Going (.apply (.closure id))) (hl : lib.Loaded m)
    (hm : m.ToApply [a, x] q) (hc : m.image.store.Closes lib id ["acc", "x"]
      (.call "cons" [.symbol "x", .symbol "acc"]) e (lib.inside params us))
    (hp : ∀ name ∈ params, name ∈ Library.names)
    (hb : (lib.inside params us).lookup "cons" = some Builtin.cons.value)
    (hr : 3 ≤ m.image.store.room) (hh : q.slots.length + 6 ≤ h) (hv : q.slots.length ≠ level) :
    Passes level q.waiting q.slots 3 h (.apply (.closure id)) m q.cont fun m' => ∃ i,
      m'.With (.pair i) q ∧ m'.image.store.object? i.ref = some (.cell ⟨x, a⟩) ∧
      ¬m'.image.store.Refers q.waiting i.ref := by
  refine (hm.into hg hl hc rfl (by decide) hp hv).bind 3 (fun m₁ ha₁ hg₁ hm₁ => ?_) (Nat.le_refl _)
  obtain ⟨e', hm₁, -, hsc⟩ := hm₁
  have hroom := ha₁.room
  refine Passes.inside (e := e') <| (hm₁.call [x, a] hg₁ hsc hb (ordinary_value rfl)
    (.cons rfl (.cons rfl .nil)) (by simp; omega) (by simp; omega)).bind 1
      (fun m₂ ha₂ hg₂ hm₂ => ?_) (Nat.le_refl _)
  have hroom₂ := ha₂.room
  refine (hm₂.cons hg₂ hv (by simp at hroom₂; omega)).imp ?_
  rintro m₃ ⟨i, hm₃, ho, hi⟩
  exact ⟨i, ⟨hm₃.global, hm₃.val, hm₃.slots⟩, ho, hi⟩

-- The closure that counts an element.
theorem ToApply.count {k k' : Int64} (hg : m.Going (.apply (.closure id))) (hl : lib.Loaded m)
    (hm : m.ToApply [.int k, x] q) (hc : m.image.store.Closes lib id ["n", "_"]
      (.call "+" [.symbol "n", .int 1]) e (lib.inside params us))
    (hp : ∀ name ∈ params, name ∈ Library.names)
    (hb : (lib.inside params us).lookup "+" = some Builtin.add.value)
    (hk : Word.int64? (k.toInt + 1) = some k')
    (hr : 3 ≤ m.image.store.room) (hh : q.slots.length + 6 ≤ h) (hv : q.slots.length ≠ level) :
    Passes level q.waiting q.slots 3 h (.apply (.closure id)) m q.cont (With (.int k') q) := by
  refine (hm.into hg hl hc rfl (by decide) hp hv).bind 2 (fun m₁ ha₁ hg₁ hm₁ => ?_) (by omega)
  obtain ⟨e', hm₁, -, hsc⟩ := hm₁
  have hroom := ha₁.room
  refine Passes.inside (e := e') <| (hm₁.call [.int k, .int 1] hg₁ hsc hb (ordinary_value rfl)
    (.cons rfl (.cons rfl .nil)) (by simp; omega) (by simp; omega)).bind 0
      (fun m₂ ha₂ hg₂ hm₂ => ?_) (Nat.le_refl _)
  exact (hm₂.add hg₂ hv hk).imp fun m₃ hm₃ => ⟨hm₃.global, hm₃.val, hm₃.slots⟩

-- Quiet folds

-- The machine comes to a machine of which `P` holds, in quiet steps on top of `σ`, with room to
-- spare.
def Computes (level : Nat) (held : List Ref) (σ : List Slot) (h spare : Nat) (next : Step)
    (m : Machine)
    (next' : Step) (P : Machine → Prop) : Prop :=
  ∃ m', Stretch level σ (next, m) (next', m') ∧ Leaves held h m m' ∧ m'.Going next' ∧
    spare ≤ m'.image.store.room ∧ P m'

theorem Passes.computes {P Q : Machine → Prop} (hs : Passes level held' σ c h next m next' P)
    (hh : ∀ r ∈ held, m.image.store.Refers held' r)
    (hn : ∀ m', Allocates held' c h m m' → m'.Going next' → P m' →
      Computes level held σ h spare next' m' next'' Q) :
    Computes level held σ h spare next m next'' Q := by
  obtain ⟨m', hs, ha, hg, hp⟩ := hs
  obtain ⟨m'', hs', ha', hg', hr, hq⟩ := hn m' ha hg hp
  exact ⟨m'', hs.trans hs', (ha.toLeaves.mono hh (Nat.le_refl _)).trans ha', hg', hr, hq⟩

theorem Computes.bind {P Q : Machine → Prop} {spare' : Nat} {τ : List Slot}
    (hs : Computes level held' τ h spare' next m next' P) (hσ : σ <:+ τ)
    (hh : ∀ r ∈ held, m.image.store.Refers held' r)
    (hn : ∀ m', Leaves held' h m m' → m'.Going next' → spare' ≤ m'.image.store.room → P m' →
      Computes level held σ h spare next' m' next'' Q) :
    Computes level held σ h spare next m next'' Q := by
  obtain ⟨m', hs, ha, hg, hr, hp⟩ := hs
  obtain ⟨m'', hs', ha', hg', hr', hq⟩ := hn m' ha hg hr hp
  exact ⟨m'', (hs.mono hσ).trans hs', (ha.mono hh (Nat.le_refl _)).trans ha', hg', hr', hq⟩

-- A fold whose closure takes quiet steps only.
theorem Turning.computes {K : List Value → Value → Machine → Prop}
    (hm : Turning lib p (.closure id) a l ids vs spare m)
    (hc : m.image.store.Closes lib id ns d e ρ) (hk : K [] a m)
    (hK : ∀ done, Lasting p (.closure id) h (K done))
    (hb : ∀ {a x done rest m q}, m.Going (.apply (.closure id)) → lib.Loaded m →
      m.ToApply [a, x] q →
      m.image.store.Closes lib id ns d e ρ → K done a m → done ++ x :: rest = vs →
      p.waiting ⊆ q.waiting → q.slots.length = p.slots.length + 7 → 24 ≤ m.image.store.room →
      Passes level q.waiting q.slots 24 h (.apply (.closure id)) m q.cont fun m' => ∃ y,
        m'.With y q ∧ (K done a m' → K (done ++ [x]) y m'))
    (hh : p.slots.length + 19 ≤ h) (hv : p.Clear level) :
    Computes level p.waiting p.slots h spare (.apply (lib.value .foldl)) m p.cont fun m' =>
      lib.Loaded m' ∧ ∃ b, m'.With b p ∧ K vs b m' := by
  -- No call goes out, so that the invariant is relative to the machine before the fold.
  let J (done : List Value) (log : List Call) (a : Value) (m' : Machine) : Prop :=
    log = [] ∧ Leaves p.waiting h m m' ∧ m'.image.store.Closes lib id ns d e ρ ∧ K done a m'
  have hJ : ∀ done log, Lasting p (.closure id) h (J done log) := by
    rintro done log a m₁ m₂ next held ⟨hlog, hl₁, hc₁, hk₁⟩ hg hw hh hf ha hl₂
    exact ⟨hlog, hl₁.trans (hl₂.mono hh (Nat.le_refl _)), hc₁.keeps hf hl₂.keeps,
      hK done hk₁ hg hw hh hf ha hl₂⟩
  have hadv : Advances lib p (.closure id) .nil level p.slots (.apply (lib.value .foldl), m) spare
      vs J := by
    intro a x l rest i ids us done log m₁ e₁ q hpre hg₁ hfold hm₁ hrow hj hw hroom
    have ⟨hlog, hl₁, hc₁, hk₁⟩ := hj
    have hslots : q.slots <:+ (lib.foldPlace q (.closure id) rest).slots :=
      Place.operand_above.slots
    have hup : q.held ⊆ (lib.foldPlace q (.closure id) rest).waiting := Place.operand_above.held
    have hholds {v : Value} (name : String) (hv : (lib.inside Definition.foldl.params
        [.closure id, a, l]).lookup name = some v) :
        m₁.image.store.Holds (lib.foldPlace q (.closure id) rest).waiting v := fun r hr =>
      (hfold.active.holds hg₁.sound name hv r hr).mono fun r hr => .root (hup hr)
    have hwait : p.waiting ⊆ (lib.foldPlace q (.closure id) rest).waiting := fun r hr =>
      hup (Place.waiting_subset_held hr)
    obtain ⟨m₂, hs₂, ha₂, hg₂, y, hm₂, hy⟩ := hb hg₁ hfold.active.loaded hm₁ hc₁ hk₁ hw hwait
      (lib.length_foldPlace q (.closure id) rest) (by omega)
    have hj₂ : J done log a m₂ := hJ done log hj hg₁
      (fun r hr => hm₁.mem_roots (List.mem_cons_of_mem _ (hwait hr))) (fun r hr => .root (hwait hr))
      (hholds "f" rfl) (hholds "acc" rfl) ha₂.toLeaves
    have hroom₂ := ha₂.room
    exact ⟨y, log, m₂, hpre.stretch (hs₂.mono hslots), hg₂,
      hfold.leaves hg₁.sound ha₂.toLeaves, hm₂, hrow.keeps (hholds "xs" rfl) ha₂.keeps,
      ⟨hj₂.1, hj₂.2.1, hj₂.2.2.1, hy hj₂.2.2.2⟩, by omega⟩
  obtain ⟨b, log, m', hrun, hg', hm', hl', hroom', hlog, hleaves, -, hk'⟩ := hm.runs hJ hadv
    (List.suffix_refl _) hh hv (.quiet .refl) ⟨rfl, .refl hm.going.sound, hc, hk⟩ rfl
  subst hlog
  exact ⟨m', hrun.quiet_of_nil, hleaves, hg', hroom', hl', b, hm', hk'⟩

theorem lasting_fresh {f w : Value} :
    Lasting p f h fun a m => m.image.store.Fresh p.waiting a vs w := by
  rintro a m m' next held ⟨ids, hr, hf⟩ hg hw hh - ha hl
  refine ⟨ids, hr.keeps ha hl.keeps, fun id hid href => hf id hid ?_⟩
  exact hg.refers_of_keeps hw (hl.keeps.mono hh) href

-- The elements are put in front of the accumulator.
theorem Turning.push (hm : Turning lib p (.closure id) b l ids vs spare m)
    (hc : m.image.store.Closes lib id ["acc", "x"] (.call "cons" [.symbol "x", .symbol "acc"]) e
      (lib.inside params us)) (hp : ∀ name ∈ params, name ∈ Library.names)
    (hb : (lib.inside params us).lookup "cons" = some Builtin.cons.value)
    (hh : p.slots.length + 19 ≤ h) (hv : p.Clear level) (hv' : p.slots.length + 7 ≠ level) :
    Computes level p.waiting p.slots h spare (.apply (lib.value .foldl)) m p.cont fun m' =>
      lib.Loaded m' ∧ ∃ r, m'.With r p ∧ m'.image.store.Fresh p.waiting r vs.reverse b := by
  refine hm.computes (K := fun done a m => m.image.store.Fresh p.waiting a done.reverse b) hc
    ⟨[], .nil, List.forall_mem_nil _⟩ (fun _ => lasting_fresh) ?_ hh hv
  intro a x done rest m₁ q hg₁ hl₁ hm₁ hc₁ _ _ hw hlen hr
  refine ((hm₁.push hg₁ hl₁ hc₁ hp hb (by omega) (by omega) (hlen ▸ hv')).mono (List.suffix_refl _)
    (fun _ => .root) (by omega) (Nat.le_refl _)).imp ?_
  rintro m₂ ⟨i, hm₂, ho, hi⟩
  refine ⟨_, hm₂, fun ⟨is, hrow, hf⟩ => ⟨i :: is, ?_, List.forall_mem_cons.mpr ⟨fun hr => ?_, hf⟩⟩⟩
  · rw [List.reverse_append]
    exact .cons ho hrow
  · exact hi (hr.mono fun _ hr => .root (hw hr))

-- The elements are counted.
theorem Turning.count (hm : Turning lib p (.closure id) (.int 0) l ids vs spare m)
    (hc : m.image.store.Closes lib id ["n", "_"] (.call "+" [.symbol "n", .int 1]) e
      (lib.inside params us)) (hp : ∀ name ∈ params, name ∈ Library.names)
    (hb : (lib.inside params us).lookup "+" = some Builtin.add.value) (hn : vs.length < 2 ^ 63)
    (hh : p.slots.length + 19 ≤ h) (hv : p.Clear level) (hv' : p.slots.length + 7 ≠ level) :
    Computes level p.waiting p.slots h spare (.apply (lib.value .foldl)) m p.cont fun m' =>
      lib.Loaded m' ∧ ∃ r, m'.With r p ∧ ∃ k, r = .int k ∧ k.toInt = vs.length := by
  refine hm.computes (K := fun done a m => ∃ k, a = .int k ∧ k.toInt = done.length) hc ⟨0, rfl, rfl⟩
    (fun _ => fun hk _ _ _ _ _ _ => hk) ?_ hh hv
  rintro a x done rest m₁ q hg₁ hl₁ hm₁ hc₁ ⟨k, rfl, hk⟩ hw - hlen hr
  rw [← hw, List.length_append, List.length_cons] at hn
  have ⟨k', hk', he⟩ := Word.exists_int64?_succ hk (by omega)
  refine ((hm₁.count hg₁ hl₁ hc₁ hp hb hk' (by omega) (by omega) (hlen ▸ hv')).mono
    (List.suffix_refl _)
    (fun _ => .root) (by omega) (Nat.le_refl _)).imp ?_
  exact fun m₂ hm₂ => ⟨_, hm₂, fun _ => ⟨k', rfl, by rw [he, List.length_append]; rfl⟩⟩

end Machine

namespace Library.Loaded

-- The list procedures that are a fold over their argument.
theorem fold (df : Definition) (hl : lib.Loaded m) (hd : df ∈ Definition.all)
    (hps : df.params = ["xs"]) (hbody : df.body = .call "foldl" [.lambda ns d, i, .symbol "xs"])
    (hg : m.Going (.apply (lib.value df))) (hm : m.ToApply [l] p)
    (hi : i.value? (lib.inside ["xs"] [l]) = some a)
    (hrow : m.image.store.Row l ids vs .nil)
    (hr : spare + 32 * (vs.length + 2) ≤ m.image.store.room)
    (hh : p.slots.length + 19 ≤ h) (hv : p.Clear level) (hv' : p.slots.length + 6 ≠ level) :
    Passes level p.waiting p.slots 3 h (.apply (lib.value df)) m (.apply (lib.value .foldl))
      fun m' =>
      ∃ id e, Turning lib p (.closure id) a l ids vs spare m' ∧
        m'.image.store.Closes lib id ns d e (lib.inside ["xs"] [l]) := by
  have hwait : ∀ r ∈ p.waiting, m.image.store.Refers (p.waiting ++ [l].flatMap Value.refs) r :=
    fun r hr => .root (List.mem_append_left _ hr)
  refine ((hl.enter hd hg hm (by rw [hps]; rfl) (hv 0 (by decide))).frame.mono
    (List.suffix_refl _) hwait
    (Nat.le_refl _) (Nat.le_refl _)).bind 3 (fun m₁ _ hg₁ hm₁ => ?_) (Nat.le_refl _)
  obtain ⟨⟨e, hm₁, hact₁⟩, ha₁⟩ := hm₁
  rw [hbody] at hm₁
  rw [hps] at hact₁
  have hrow₁ := hrow.keeps (Library.holds_argument p [l] (by simp)) ha₁.keeps
  have hroom₁ := ha₁.room
  obtain ⟨m₂, hs₂, ha₂, hg₂, id, hm₂, hc₂⟩ :=
    hm₁.fold (h := h) hg₁ hact₁ rfl rfl hi rfl (by omega) (by simp; omega) hv'
  have hroom₂ := ha₂.room
  exact Passes.inside
    ⟨m₂, hs₂, ha₂, hg₂, id, e, ⟨hg₂, (hact₁.allocates ha₂ hg₁.sound).loaded, ⟨e, hm₂⟩,
    hc₂.ordinary, hrow₁.keeps (hact₁.holds hg₁.sound "xs" rfl) ha₂.keeps, by omega⟩, hc₂⟩

theorem length (hl : lib.Loaded m) (hg : m.Going (.apply (lib.value .length)))
    (hm : m.ToApply [l] p)
    (hrow : m.image.store.Row l ids vs .nil) (hn : vs.length < 2 ^ 63)
    (hr : spare + 32 * (vs.length + 2) ≤ m.image.store.room) (hh : p.slots.length + 19 ≤ h)
    (hv : p.Clear level) (hv' : ∀ i ∈ [6, 7], p.slots.length + i ≠ level) :
    Computes level p.waiting p.slots h spare (.apply (lib.value .length)) m p.cont fun m' =>
      lib.Loaded m' ∧ ∃ r, m'.With r p ∧ ∃ k, r = .int k ∧ k.toInt = vs.length := by
  refine (hl.fold .length (by simp [Definition.all]) rfl rfl hg hm rfl hrow hr hh hv
    (hv' 6 (by decide))).computes
    (fun _ => .root) ?_
  rintro m₁ - - ⟨id, e, hm₁, hc₁⟩
  exact hm₁.count hc₁ (by decide) rfl hn hh hv (hv' 7 (by decide))

theorem reverse (hl : lib.Loaded m) (hg : m.Going (.apply (lib.value .reverse)))
    (hm : m.ToApply [l] p)
    (hrow : m.image.store.Row l ids vs .nil)
    (hr : spare + 32 * (vs.length + 2) ≤ m.image.store.room) (hh : p.slots.length + 19 ≤ h)
    (hv : p.Clear level) (hv' : ∀ i ∈ [6, 7], p.slots.length + i ≠ level) :
    Computes level p.waiting p.slots h spare (.apply (lib.value .reverse)) m p.cont fun m' =>
      lib.Loaded m' ∧ ∃ r, m'.With r p ∧ m'.image.store.Fresh p.waiting r vs.reverse .nil := by
  refine (hl.fold .reverse (by simp [Definition.all]) rfl rfl hg hm rfl hrow hr hh hv
    (hv' 6 (by decide))).computes
    (fun _ => .root) ?_
  rintro m₁ - - ⟨id, e, hm₁, hc₁⟩
  exact hm₁.push hc₁ (by decide) rfl hh hv (hv' 7 (by decide))

end Library.Loaded

-- Append

-- A call of `append` that has made its closure.
structure Library.Appending (lib : Library) (p : Place) (id : ClosureId) (l b : Value)
    (m : Machine) :
    Prop where
  active : lib.Active Definition.append.params [l, b] p m
  closes : m.image.store.Closes lib id ["acc", "x"]
    (.call "cons" [.symbol "x", .symbol "acc"]) p.env
    (lib.inside Definition.append.params [l, b])

theorem Library.Appending.leaves (hm : lib.Appending p id l b m) (hs : m.image.store.Sound)
    (hl : Leaves held h m m') (hh : p.held ++ [id.ref] ⊆ held) : lib.Appending p id l b m' where
  active := hm.active.leaves hl hs fun _ hr => .root (hh (List.mem_append_left _ hr))
  closes := hm.closes.keeps
    (Store.holds_of_subset fun _ hr => hh (List.mem_append_right _ hr)) hl.keeps

-- Where it waits for the list to be turned round.
def Library.appendPlace (lib : Library) (p : Place) (id : ClosureId) (b : Value) : Place :=
  p.operand (lib.value .foldl) [.closure id, b] .nil

namespace Machine

theorem held_subset_appendPlace : p.held ++ [id.ref] ⊆ (lib.appendPlace p id b).waiting := by
  refine List.append_subset.mpr ⟨Place.operand_above.held, ?_⟩
  exact Place.refs_subset_waiting (v := .closure id)
    (by simp [Library.appendPlace, Place.operand, Place.gathered, Slot.values])

theorem append_enter (hl : lib.Loaded m) (hg : m.Going (.apply (lib.value .append)))
    (hm : m.ToApply [l, b] p) (hrow : m.image.store.Row l ids vs .nil) (hr : 1 ≤ m.image.store.room)
    (hh : p.slots.length + 13 ≤ h) (hv : ∀ i ∈ [0, 6], p.slots.length + i ≠ level) :
    Passes level p.waiting p.slots 1 h (.apply (lib.value .append)) m (.apply (lib.value .reverse))
      fun m' => ∃ e id, m'.ToApply [l] (lib.appendPlace { p with env := e } id b) ∧
        lib.Appending { p with env := e } id l b m' ∧ m'.image.store.Row l ids vs .nil := by
  have hwait : ∀ r ∈ p.waiting, m.image.store.Refers (p.waiting ++ [l, b].flatMap Value.refs) r :=
    fun r hr => .root (List.mem_append_left _ hr)
  refine ((hl.enter (d := .append) (by simp [Definition.all]) hg hm rfl
    (hv 0 (by decide))).frame.mono
    (List.suffix_refl _) hwait (Nat.le_refl _) (Nat.le_refl _)).bind 1 (fun m₁ _ hg₁ hm₁ => ?_)
    (Nat.le_refl _)
  obtain ⟨⟨e, hm₁, hact₁⟩, ha₁⟩ := hm₁
  have hrow₁ := hrow.keeps (Library.holds_argument p [l, b] (by simp)) ha₁.keeps
  have hroom₁ := ha₁.room
  refine Passes.inside (e := e) <| (hm₁.close hg₁ hact₁ rfl rfl (by simp; omega)
    (hv 6 (by decide))).bind 1 (fun m₂ ha₂ hg₂ hm₂ => ?_) (Nat.le_refl _)
  obtain ⟨id, rest, hm₂, hrest, hc₂⟩ := hm₂
  have happ₂ : lib.Appending _ id l b m₂ := ⟨hact₁.allocates ha₂ hg₁.sound, hc₂⟩
  have hrow₂ := hrow₁.keeps (hact₁.holds hg₁.sound "a" rfl) ha₂.keeps
  have hroom₂ := ha₂.room
  refine ((hm₂.operand [.symbol "b"] [b] hg₂ hm₂.subset_roots hrest rfl happ₂.active.scope
    (.cons rfl .nil) (by simp; omega)).frame.mono (List.suffix_refl _)
    (fun _ hr => .root (List.mem_append_left _ hr)) (Nat.le_refl _) (Nat.le_refl h)).bind 1
    (fun m₃ _ hg₃ hm₃ => ?_) (Nat.le_refl _)
  obtain ⟨⟨rest', hrest', hm₃⟩, ha₃⟩ := hm₃
  cases hrest'
  have happ₃ := happ₂.leaves hg₂.sound ha₃.toLeaves (List.Subset.refl _)
  have hrow₃ :=
    hrow₂.keeps (fun r hr => (happ₂.active.holds hg₂.sound "a" rfl r hr).mono fun _ hr =>
    .root (List.mem_append_left _ hr)) ha₃.keeps
  have hroom₃ := ha₃.room
  let q := lib.appendPlace { p with env := e } id b
  have hq : q.slots.length = p.slots.length + 8 := Place.length_operand
  have hheld : Place.held { p with env := e } ++ [id.ref] ⊆ q.held := fun r hr =>
    Place.waiting_subset_held (held_subset_appendPlace hr)
  refine ((ToEval.call (p := q) [l] hg₃ hm₃ happ₃.active.scope rfl
    (happ₃.active.loaded.ordinary (by simp [Definition.all])) (.cons rfl .nil) (by simp; omega)
    (by simp; omega)).frame.mono Place.operand_above.slots
    (fun _ hr => .root (hheld (List.mem_append_left _ hr))) (Nat.le_refl _) (Nat.le_refl h)).imp ?_
  rintro m₄ ⟨hm₄, ha₄⟩
  refine ⟨e, id, hm₄, happ₃.leaves hg₃.sound ha₄.toLeaves hheld,
    hrow₃.keeps (fun r hr => ?_) ha₄.keeps⟩
  exact (happ₃.active.holds hg₃.sound "a" rfl r hr).mono fun _ hr =>
    .root (hheld (List.mem_append_left _ hr))

end Machine

namespace Library.Loaded

-- The elements are put in front of `b`, the last one first.
theorem append (hl : lib.Loaded m) (hg : m.Going (.apply (lib.value .append)))
    (hm : m.ToApply [l, b] p) (hrow : m.image.store.Row l ids vs .nil)
    (hr : spare + 64 * (vs.length + 2) ≤ m.image.store.room) (hh : p.slots.length + 27 ≤ h) :
    Computes (p.slots.length + 1) p.waiting p.slots h spare (.apply (lib.value .append)) m p.cont
      fun m' =>
      lib.Loaded m' ∧ ∃ r, m'.With r p ∧ m'.image.store.Fresh p.waiting r vs b := by
  refine (append_enter hl hg hm hrow (by omega) (by omega) (by simp)).computes (fun _ => .root) ?_
  rintro m₁ ha₁ hg₁ ⟨e, id, hm₁, happ₁, hrow₁⟩
  let p₁ : Place := { p with env := e }
  let q := lib.appendPlace p₁ id b
  have hq : q.slots.length = p.slots.length + 8 := Place.length_operand
  have hslots : p.slots <:+ q.slots := (Place.operand_above : q.Above p₁).slots
  have hheld : p₁.held ++ [id.ref] ⊆ q.waiting := held_subset_appendPlace
  have hwait : p.waiting ⊆ q.waiting := fun r hr =>
    hheld (List.mem_append_left _ (List.mem_cons_of_mem _ hr))
  have hroom₁ := ha₁.room
  have hr₁ : spare + 32 * (vs.length + 1) + 3 + 32 * (vs.length + 2) ≤
    m₁.image.store.room := by omega
  refine (happ₁.active.loaded.reverse (p := q) (h := h) hg₁ hm₁ hrow₁ hr₁ (by omega)
    (fun i hi => by simp at hi; omega) (fun i hi => by simp at hi; omega)).bind hslots
    (fun r hr => .root (hwait hr)) ?_
  rintro m₂ hl₂ hg₂ hroom₂ ⟨-, r, hm₂, is, hrow₂, -⟩
  have happ₂ := happ₁.leaves hg₁.sound hl₂ hheld
  have hroots : q.waiting ++ r.refs ⊆ m₂.roots .evalOperand :=
    List.append_subset.mpr ⟨fun r hr => hm₂.mem_roots rfl hr, hm₂.val_subset_roots⟩
  have hnil : m₂.image.store.Spells lib .nil (.list [] .nil) := .nil
  have hp₁ : p₁.slots.length = p.slots.length := rfl
  refine (With.apply (p := p₁) (h := h) [] hg₂ hm₂ hroots hnil happ₂.active.scope .nil
    (by simp; omega)
    (by simp; omega)).computes (fun r hr => .root (List.mem_append_left _ (hwait hr))) ?_
  rintro m₃ ha₃ hg₃ hm₃
  have happ₃ := happ₂.leaves hg₂.sound ha₃.toLeaves fun r hr => List.mem_append_left _ (hheld hr)
  have hrow₃ := hrow₂.keeps (Store.holds_of_subset (List.subset_append_right _ _)) ha₃.keeps
  have hroom₃ := ha₃.room
  have hturn : Turning lib p (.closure id) b r is vs.reverse spare m₃ :=
    ⟨hg₃, happ₃.active.loaded, ⟨e, hm₃⟩, happ₃.closes.ordinary, hrow₃, by simp at hroom₃ ⊢; omega⟩
  have hv : p.Clear (p.slots.length + 1) := fun i hi => by simp at hi; omega
  have hpush := hturn.push (h := h) happ₃.closes (by decide) rfl (by omega) hv (by omega)
  rwa [List.reverse_reverse] at hpush

end Library.Loaded
end StepLisp
