import StepLisp.Proofs.Calendar
import StepLisp.Proofs.Decimal.Whole
import StepLisp.Proofs.Foreign.Expression
import StepLisp.Proofs.Prelude.Loading

namespace StepLisp

namespace Moment

-- The moment whose fields are the lowest 32 bits of the given ones.
def ofWords (year month day hour minute second : Int) : Moment where
  year := Int.bmod year 0x100000000
  month := (month % 0x100000000).toNat
  day := (day % 0x100000000).toNat
  hour := (hour % 0x100000000).toNat
  minute := (minute % 0x100000000).toNat
  second := (second % 0x100000000).toNat

-- Its date and time.
def parts (m : Moment) : List Int :=
  [m.year, m.month, m.day, m.hour, m.minute, m.second]

-- Words that are long enough keep the fields.
theorem parts_ofWords_iff {year month day hour minute second : Int} :
    (ofWords year month day hour minute second).parts = [year, month, day, hour, minute, second] ↔
      (-2 ^ 31 ≤ year ∧ year < 2 ^ 31) ∧
      ∀ n ∈ [month, day, hour, minute, second], 0 ≤ n ∧ n < 2 ^ 32 := by
  have hyear : Int.bmod year 0x100000000 = year ↔ -2 ^ 31 ≤ year ∧ year < 2 ^ 31 := by
    constructor
    case mp =>
      intro h
      have := Int.le_bmod (x := year) (m := 0x100000000) (by decide)
      have := Int.bmod_lt (x := year) (m := 0x100000000) (by decide)
      omega
    case mpr => exact fun h => Int.bmod_eq_of_le (by omega) (by omega)
  have hword (n : Int) : ((n % 0x100000000).toNat : Int) = n ↔ 0 ≤ n ∧ n < 2 ^ 32 := by omega
  simp only [parts, ofWords, List.cons.injEq, hyear, hword, List.forall_mem_cons, List.not_mem_nil,
    false_imp_iff, implies_true, and_true]

theorem Exists.parts_lt {m : Moment} (h : m.Exists) : ∀ n ∈ m.parts, -2 ^ 31 ≤ n ∧ n < 2 ^ 31 := by
  obtain ⟨⟨hy, hy'⟩, ⟨hd, hd'⟩, ht⟩ := Calendar.exists_iff.mp h
  have hm := Calendar.month_mem_of_daysInMonth (hd.trans hd')
  have hd'' := hd'.trans Calendar.daysInMonth_le
  simp only [Calendar.firstYear, Calendar.lastYear] at hy hy'
  simp only [parts, List.forall_mem_cons, List.not_mem_nil, false_imp_iff, implies_true, and_true]
  omega

theorem Exists.ofWords_eq {m : Moment} (h : m.Exists) :
    ofWords m.year m.month m.day m.hour m.minute m.second = m := by
  have hyear : Int.bmod m.year 0x100000000 = m.year := by
    have := h.parts_lt m.year (by simp [parts])
    exact Int.bmod_eq_of_le (by omega) (by omega)
  have hword (n : Nat) (hn : (n : Int) ∈ m.parts) : ((n : Int) % 0x100000000).toNat = n := by
    have := h.parts_lt n hn
    omega
  simp only [ofWords, hyear, hword m.month (by simp [parts]), hword m.day (by simp [parts]),
    hword m.hour (by simp [parts]), hword m.minute (by simp [parts]),
    hword m.second (by simp [parts])]

end Moment

namespace Machine.Time

open Calendar

variable {m m' : Machine} {t : Int} {v : Value} {w : Moment}

theorem wholeSeconds_of_floor? {x : Float} {k : Int} (h : (Binary64.ofFloat x).floor? = some k) :
    wholeSeconds x = Word.clamp64 k := by
  unfold wholeSeconds
  split
  case h_1 hx => rw [hx] at h; cases h
  case h_2 hx => rw [hx] at h; cases h
  case h_3 => rw [h]; rfl

-- On its way through a double a timestamp of the calendar is kept, and no other becomes one.
theorem moment?_wholeSeconds (t : Int64) :
    moment? (wholeSeconds (Float.ofInt t.toInt)) = moment? t.toInt := by
  have hlow := t.le_toInt
  have hhigh := t.toInt_lt
  by_cases hs : t.toInt.natAbs < 2 ^ 53
  case pos =>
    rw [wholeSeconds_of_floor? (Binary64.floor?_ofInt_of_lt hs), Word.clamp64]
    congr 1
    omega
  case neg =>
    obtain ⟨k, hk, hle⟩ := Binary64.exists_floor?_ofInt (not_lt.mp hs) (by omega)
    have hnone {n : Int} (hn : 2 ^ 53 ≤ n.natAbs) : moment? n = none := by
      refine moment?_eq_none_iff.mpr fun w hw ht => ?_
      have := natAbs_timestamp_lt hw
      omega
    rw [wholeSeconds_of_floor? hk, hnone (not_lt.mp hs), hnone]
    rw [Word.clamp64]
    omega

theorem call_gmtime (t : Int64) : Group.time.call "gmtime" [.int t] = breakDown t.toInt := by
  show breakDown (wholeSeconds (Float.ofInt t.toInt)) = _
  unfold breakDown
  rw [moment?_wholeSeconds]

-- The elements of the list of fields.
def fieldValues (w : Moment) : List Value :=
  (fields w).map fun n => .int (Int64.ofInt n)

theorem length_fieldValues : (fieldValues w).length = 9 :=
  rfl

theorem breakDown_eq_list (hw : moment? t = some w) :
    breakDown t = (Store.list (fieldValues w) : Run Value) := by
  unfold breakDown
  rw [hw]
  rfl

theorem breakDown_eq (hs : m.image.store.Sound) (hw : moment? t = some w)
    (hr : 9 ≤ m.image.store.room) : ∃ v s ids,
      breakDown t m = .ok v { m with image := { m.image with store := s } } ∧
      m.image.store.Gains 9 s ∧ s.Spine v ids .nil ∧ ids.map s.car = fieldValues w ∧
      ∀ id ∈ ids, (s.object? id.ref).isSome := by
  replace hr : (fieldValues w).length ≤ m.image.store.room := hr
  obtain ⟨v, s, ids, hl, hg, hsp, hc, hf⟩ := Store.list_gains hs hr
  refine ⟨v, s, ids, ?_, hg, hsp, hc, fun id hid => (hf id hid).right⟩
  rw [breakDown_eq_list hw]
  exact onStore_of_ok hl

-- Only timestamps of the calendar are broken down.
theorem of_breakDown (h : breakDown t m = .ok v m') :
    ∃ w, moment? t = some w ∧ 9 ≤ m.image.store.room := by
  cases hw : moment? t
  case none =>
    unfold breakDown at h
    rw [hw] at h
    cases h
  case some w =>
    rw [breakDown_eq_list hw] at h
    refine ⟨w, rfl, ?_⟩
    cases hl : Store.list (fieldValues w) m.image.store
    case ok => exact length_fieldValues ▸ Store.length_le_room_of_list hl
    case error =>
      simp only [liftM, monadLift, MonadLift.monadLift, onImage, Image.onStore, hl] at h
      cases h

theorem call_timegm {items : List Value} (hl : m.image.store.toList? v = some items) :
    Group.time.call "timegm" [v] m = timegm "timegm" items m := by
  show (listArg "timegm" v >>= timegm "timegm") m = _
  simp only [listArg, query, Bind.bind, EStateM.bind, hl]
  rfl

theorem timestamp?_eq (year month day hour minute second : Int) :
    timestamp? year month day hour minute second =
      if (Moment.ofWords year month day hour minute second).Exists then
        some (timestamp (.ofWords year month day hour minute second))
      else none :=
  rfl

theorem timegm_eq {function : String} (year month day hour minute second : Int64)
    {rest : List Value} (hr : rest.length = 3) :
    timegm function (.int year :: .int month :: .int day :: .int hour :: .int minute ::
      .int second :: rest) m =
      if (Moment.ofWords year.toInt month.toInt day.toInt hour.toInt minute.toInt
        second.toInt).Exists then
        .ok (.int (Int64.ofInt (timestamp
          (.ofWords year.toInt month.toInt day.toInt hour.toInt minute.toInt second.toInt)))) m
      else .error (.arithmetic .invalidDate) m := by
  have hm : [Value.int year, .int month, .int day, .int hour, .int minute, .int second].mapM
      (integerArg function) m = .ok [year, month, day, hour, minute, second] m := rfl
  unfold timegm
  rw [if_pos (by simp [hr])]
  simp only [List.take_succ_cons, List.take_zero, Bind.bind, EStateM.bind, hm, timestamp?_eq]
  split
  case isTrue => rfl
  case isFalse => rfl

-- The fields of a moment are told exactly, and name it.
theorem timegm_fieldValues {function : String} (hw : w.Exists) :
    timegm function (fieldValues w) m = .ok (.int (Int64.ofInt (timestamp w))) m := by
  have hword (n : Int) (hn : n ∈ w.parts) : (Int64.ofInt n).toInt = n := by
    have := hw.parts_lt n hn
    exact Int64.toInt_ofInt_of_le (by omega) (by omega)
  refine (timegm_eq _ _ _ _ _ _ rfl).trans ?_
  rw [hword w.year (by simp [Moment.parts]), hword w.month (by simp [Moment.parts]),
    hword w.day (by simp [Moment.parts]), hword w.hour (by simp [Moment.parts]),
    hword w.minute (by simp [Moment.parts]), hword w.second (by simp [Moment.parts]), hw.ofWords_eq,
    if_pos hw]

theorem toInt_timestamp (hw : w.Exists) : (Int64.ofInt (timestamp w)).toInt = timestamp w := by
  have := natAbs_timestamp_lt hw
  exact Int64.toInt_ofInt_of_le (by omega) (by omega)

theorem call_gmtime_timestamp (hw : w.Exists) (hs : m.image.store.Sound)
    (hr : 9 ≤ m.image.store.room) :
    ∃ v m', Group.time.call "gmtime" [.int (Int64.ofInt (timestamp w))] m = .ok v m' ∧
      m'.image.store.toList? v = some (fieldValues w) := by
  have hm : moment? (Int64.ofInt (timestamp w)).toInt = some w :=
    moment?_eq_some_iff.mpr ⟨hw, (toInt_timestamp hw).symm⟩
  obtain ⟨v, s, ids, hb, -, hsp, hc, -⟩ := breakDown_eq hs hm hr
  exact ⟨v, _, by rw [call_gmtime, hb], Store.toList?_eq_some_iff.mpr ⟨ids, hsp, hc⟩⟩

-- A list of integers is taken for the moment that the lowest 32 bits of its fields name, if there
-- is one in the calendar, and that moment is what the timestamp is broken down to.
theorem timegm_exact {list : Value} {year month day hour minute second : Int64} {rest : List Value}
    (hl : m.image.store.toList? list = some (.int year :: .int month :: .int day :: .int hour ::
      .int minute :: .int second :: rest)) (hr : rest.length = 3) :
    let w := Moment.ofWords year.toInt month.toInt day.toInt hour.toInt minute.toInt second.toInt
    (Group.time.call "timegm" [list] m =
      if w.Exists then .ok (.int (Int64.ofInt (timestamp w))) m
      else .error (.arithmetic .invalidDate) m) ∧
    (w.Exists → (Int64.ofInt (timestamp w)).toInt = timestamp w ∧
      ∀ m' : Machine, m'.image.store.Sound → 9 ≤ m'.image.store.room →
        ∃ v m'', Group.time.call "gmtime" [.int (Int64.ofInt (timestamp w))] m' = .ok v m'' ∧
          m''.image.store.toList? v = some (fieldValues w)) ∧
    (w.parts = [year.toInt, month.toInt, day.toInt, hour.toInt, minute.toInt, second.toInt] ↔
      (-2 ^ 31 ≤ year.toInt ∧ year.toInt < 2 ^ 31) ∧
      ∀ n ∈ [month.toInt, day.toInt, hour.toInt, minute.toInt, second.toInt], 0 ≤ n ∧
        n < 2 ^ 32) := by
  refine ⟨?_, fun hw => ⟨toInt_timestamp hw, fun m' hs hr => call_gmtime_timestamp hw hs hr⟩,
    Moment.parts_ofWords_iff⟩
  rw [call_timegm hl, timegm_eq _ _ _ _ _ _ hr]

-- A machine with a list of fields, and nine cells left.
def dated (year month day hour minute second : Int64) : Machine where
  image.store.cells := #[⟨.int year, .pair ⟨1⟩⟩, ⟨.int month, .pair ⟨2⟩⟩, ⟨.int day, .pair ⟨3⟩⟩,
    ⟨.int hour, .pair ⟨4⟩⟩, ⟨.int minute, .pair ⟨5⟩⟩, ⟨.int second, .pair ⟨6⟩⟩,
    ⟨.int 0, .pair ⟨7⟩⟩, ⟨.int 0, .pair ⟨8⟩⟩, ⟨.int 0, .nil⟩]
  image.store.capacity := 18
  image.store.threshold := 1
  image.symbols := .base
  control.env := ⟨0⟩
  global := ⟨0⟩
  settings := {}
  generator := default
  clock := default

-- The lowest 32 bits of the year are those of 1970.
theorem timegm_exact_wrapped :
    let m := dated 0x1000007b2 1 1 0 0 0
    Group.time.call "timegm" [.pair ⟨0⟩] m = .ok (.int 0) m ∧
      ∃ v m', Group.time.call "gmtime" [.int 0] m = .ok v m' ∧
        m'.image.store.toList? v = some ([1970, 1, 1, 0, 0, 0, 3, 1, 0].map .int) := by
  intro m
  have hs : m.image.store.Sound := ⟨.nil, nofun, .empty, .empty, .empty, .empty, .empty⟩
  have hl : m.image.store.toList? (.pair ⟨0⟩) =
      some ([0x1000007b2, 1, 1, 0, 0, 0, 0, 0, 0].map .int) := rfl
  obtain ⟨hcall, hback, -⟩ := timegm_exact hl rfl
  rw [if_pos (by decide)] at hcall
  obtain ⟨v, m', hg, hv⟩ := (hback (by decide)).right m hs (by decide)
  exact ⟨hcall, v, m', hg, hv⟩

-- Timestamps in expressions

section Expression

variable {t : Int64} {lib : Library} {p : Place} {h level : Nat}

theorem id?_time : Group.id? "time" = some ⟨2⟩ := by
  decide +kernel

theorem gmtime_gives (hw : moment? t.toInt = some w) (hs : m.image.store.Sound)
    (hr : 9 ≤ m.image.store.room) :
    Gives .time "gmtime" [.int t] 9 (fun s v => ∃ ids, s.Row v ids (fieldValues w) .nil) m := by
  obtain ⟨v, s, ids, hb, hg, hsp, hc, hf⟩ := breakDown_eq hs hw hr
  refine ⟨v, s, by rw [call_gmtime, hb], hg, ids, ?_⟩
  rw [← hc]
  exact .of_spine hsp fun id hid => Option.isSome_iff_exists.mp (hf id hid)

theorem timegm_gives (hw : w.Exists) (ht : timestamp w = t.toInt) (hs : m.image.store.Sound)
    (hl : m.image.store.toList? v = some (fieldValues w)) :
    Gives .time "timegm" [v] 0 (fun _ u => u = .int t) m := by
  refine ⟨.int t, m.image.store, ?_, .refl hs, rfl⟩
  rw [call_timegm hl, timegm_fieldValues hw, ht, Int64.ofInt_toInt]

-- The timestamp is broken down, and the list is put together again.
def roundTrip (t : Int64) : Datum :=
  .call "ffi" [.symbol "time", .symbol "timegm",
    .call "ffi" [.symbol "time", .symbol "gmtime", .int t]]

theorem roundTrip_passes (hw : moment? t.toInt = some w) (hg : m.Going .eval)
    (hm : m.ToEval lib (roundTrip t) p)
    (hsc : m.image.store.Scope lib p.env [("ffi", Builtin.ffi.value)])
    (hn : ∀ name ∈ ["time", "gmtime", "timegm"], m.image.symbols.name (lib.sym name) = name)
    (hr : 11 ≤ m.image.store.room) :
    Passes (p.slots.length + 1) p.held p.slots 11 (p.slots.length + 11) .eval m p.cont
      (With (.int t) p) := by
  have hform (s : Store) : isSpecial s Builtin.ffi.value = .ok true := isSpecial_value s
  have hkept {m' : Machine} {c h : Nat} (ha : Allocates p.held c h m m') :
      m'.image.store.Scope lib p.env [("ffi", Builtin.ffi.value)] ∧
      ∀ name ∈ ["time", "gmtime", "timegm"], m'.image.symbols.name (lib.sym name) = name :=
    ⟨hsc.keeps (.root List.mem_cons_self) ha.keeps, ha.symbols ▸ hn⟩
  have hroom {m' : Machine} {h : Nat} (ha : Allocates p.held 0 h m m') : 11 ≤ m'.image.store.room :=
    hr.trans ha.room
  obtain ⟨hwe, hwt⟩ := moment?_eq_some_iff.mp hw
  refine (hm.form hg hsc rfl hform (by omega)).bind 11 (fun m₁ ha₁ hg₁ hm₁ => ?_) (by omega)
  obtain ⟨hsc₁, hn₁⟩ := hkept ha₁
  refine (hm₁.foreignOperand [] [] hg₁ (hn₁ _ (by simp)) id?_time hsc₁ .nil (by simp)
    (by omega)).bind 11 (fun m₂ ha₂ hg₂ hm₂ => ?_) (by omega)
  obtain ⟨hsc₂, hn₂⟩ := hkept (ha₁.trans ha₂)
  have hlen : (p.foreignOperand ⟨2⟩ (lib.sym "timegm") []).slots.length = p.slots.length + 6 :=
    Place.length_foreignOperand
  refine (Passes.below Place.foreignOperand_above (hm₂.form hg₂ hsc₂ rfl hform (by omega))).bind 11
    (fun m₃ ha₃ hg₃ hm₃ => ?_) (by omega)
  have ha := (ha₁.trans ha₂).trans ha₃
  obtain ⟨hsc₃, hn₃⟩ := hkept ha
  have hroom₃ := hroom ha
  refine (Passes.below Place.foreignOperand_above (hm₃.foreign (c := 9) [.int t] hg₃
    (fun name hname => hn₃ name (by simp at hname ⊢; tauto)) id?_time rfl hsc₃ (.cons rfl .nil)
    (fun m' hk hr => gmtime_gives hw hk.sound (by simp at hr; omega)) (by simp; omega)
    (by simp; omega) (by omega))).bind 1 (fun m₄ ha₄ hg₄ hv => ?_) (by simp)
  obtain ⟨v, hm₄, ids, hrow⟩ := hv
  obtain ⟨-, hn₄⟩ := hkept (ha.trans ha₄)
  have hroom₄ := ha₄.room
  have hholds : m₄.image.store.Holds (m₄.roots .evalOperand) v :=
    Store.holds_of_subset hm₄.val_subset_roots
  refine (hm₄.foreign (c := 0) (Q := fun _ u => u = .int t) hg₄ (hn₄ "timegm" (by simp)) rfl
    (fun m' hk _ => timegm_gives hwe hwt hk.sound (hrow.keeps hholds hk).toList?)
    (by simp at *; omega) (by simp)).imp ?_
  rintro m' ⟨_, hm', rfl⟩
  exact hm'

-- A timestamp that can be broken down is what the list is put together to, as long as that list is
-- there, and an expression that does both has the timestamp as its value.
theorem timegm_gmtime (hs : m.image.store.Sound)
    (hcall : Group.time.call "gmtime" [.int t] m = .ok v m') :
    ∃ w : Moment, w.Exists ∧ timestamp w = t.toInt ∧
      m'.image.store.toList? v = some (fieldValues w) ∧ (fieldValues w).length = 9 ∧
      (∀ m₁ : Machine, m₁.image.store.toList? v = some (fieldValues w) →
        Group.time.call "timegm" [v] m₁ = .ok (.int t) m₁) ∧
      ∀ (lib : Library) (p : Place) (m₁ : Machine), m₁.Going .eval → m₁.ToEval lib (roundTrip t) p →
        m₁.image.store.Scope lib p.env [("ffi", Builtin.ffi.value)] →
        (∀ name ∈ ["time", "gmtime", "timegm"], m₁.image.symbols.name (lib.sym name) = name) →
        11 ≤ m₁.image.store.room →
        ∃ m₂, Over p.slots (.eval, m₁) (p.cont, m₂) ∧
          Allocates p.held 11 (p.slots.length + 11) m₁ m₂ ∧ m₂.With (.int t) p := by
  rw [call_gmtime] at hcall
  obtain ⟨w, hw, hr⟩ := of_breakDown hcall
  obtain ⟨hwe, hwt⟩ := moment?_eq_some_iff.mp hw
  obtain ⟨u, s, ids, hb, -, hsp, hc, -⟩ := breakDown_eq hs hw hr
  cases hb.symm.trans hcall
  refine ⟨w, hwe, hwt, Store.toList?_eq_some_iff.mpr ⟨ids, hsp, hc⟩, rfl, fun m₁ hl => ?_, ?_⟩
  · rw [call_timegm hl, timegm_fieldValues hwe, hwt, Int64.ofInt_toInt]
  · intro lib p m₁ hg hm hsc hn hr
    obtain ⟨m₂, hst, ha, -, hv⟩ := roundTrip_passes hw hg hm hsc hn hr
    exact ⟨m₂, hst.toOver, ha, hv⟩

-- The last second of the year 0, before the first day that is counted.
def beforeCounting : Int64 := -62135596801

def conversion : String :=
  "(ffi time timegm (ffi time gmtime -62135596801))"

-- Whether a machine is about to evaluate the expression for it.
def convertsBack (m : Machine) : Bool :=
  match Stage.next^[1] (.reading (Reader.walk conversion.toList) m) with
  | .running _ _ .eval m =>
    match m.image.store.frame m.global with
    | .ok f => f.parent.isNone && m.control.env = m.global && 11 ≤ m.image.store.room &&
      m.image.store.spells (Library.ofMachine m).sym (roundTrip beforeCounting) m.control.exp &&
      m.image.store.means m.global ((Library.ofMachine m).sym "ffi") Builtin.ffi.value &&
      ["time", "gmtime", "timegm"].all fun name =>
        m.image.symbols.name ((Library.ofMachine m).sym name) = name
    | .error _ => false
  | _ => false

theorem timegm_gmtime_negative : ∃ rest n m p m₁, Reached (.running rest n .eval m) ∧ m.Placed p ∧
    Over p.slots (.eval, m) (p.cont, m₁) ∧ m₁.With (.int (-62135596801)) p := by
  obtain ⟨m₀, hb, ht⟩ := exists_bare_of {} default {} convertsBack (by decide +kernel)
  unfold convertsBack at ht
  split at ht <;> try exact absurd ht Bool.false_ne_true
  case h_1 rest n m hA =>
    split at ht <;> try exact absurd ht Bool.false_ne_true
    case h_1 f hf =>
      simp only [Bool.and_eq_true, decide_eq_true_eq, Option.isNone_iff_eq_none,
        List.all_eq_true] at ht
      obtain ⟨⟨⟨⟨⟨hp, henv⟩, hroom⟩, hexp⟩, hffi⟩, hnames⟩ := ht
      have h₀ : Reached (.reading (Reader.walk conversion.toList) m₀) :=
        reached_request (.bare hb) _
      have hr : Reached (.running rest n .eval m) := hA ▸ h₀.iterate 1
      have hg := going_of_reached hr
      let p : Place := ⟨m.global, m.control.env, m.control.cont, m.control.stack.slots⟩
      have hm : m.Placed p := ⟨rfl, rfl, rfl, rfl⟩
      have hchain : m.image.store.Chain p.env [m.global] := by
        show m.image.store.Chain m.control.env _
        rw [henv]
        exact .last hf hp
      have hsc : m.image.store.Scope (.ofMachine m) p.env [("ffi", Builtin.ffi.value)] :=
        Store.scope_of_means hchain (by simpa [p, henv] using hffi)
      obtain ⟨v, m', hcall⟩ : ∃ v m', Group.time.call "gmtime" [.int beforeCounting] m =
        .ok v m' := by
        obtain ⟨v, s, -, hbr, -⟩ :=
          breakDown_eq (t := beforeCounting.toInt) (w := ⟨0, 12, 31, 23, 59, 59⟩)
          hg.sound (by decide) (by omega)
        exact ⟨v, _, by rw [call_gmtime, hbr]⟩
      obtain ⟨-, -, -, -, -, -, heval⟩ := timegm_gmtime hg.sound hcall
      obtain ⟨m₁, ho, -, hv⟩ := heval (.ofMachine m) p m hg
        ⟨hm, Store.spells_sound Library.mem_code hexp⟩ hsc hnames hroom
      exact ⟨rest, n, m, p, m₁, hr, hm, ho, hv⟩

end Expression

end Machine.Time
end StepLisp
