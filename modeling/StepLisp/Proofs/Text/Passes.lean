import StepLisp.Proofs.Text.Reading

namespace StepLisp

namespace Act

variable {σ α β : Type} {P : Fault → Prop} {x : Act σ α} {f : α → Act σ β}

-- The action fails with no other faults.
def Raises (P : Fault → Prop) (x : Act σ α) : Prop :=
  ∀ ⦃s fault s'⦄, x s = .error fault s' → P fault

theorem Raises.pure {a : α} : Raises P (Pure.pure a : Act σ α) :=
  fun _ _ _ h => by cases h

theorem Raises.bind (hx : Raises P x) (hf : ∀ a, Raises P (f a)) : Raises P (x >>= f) := by
  intro s fault s' h
  simp only [Bind.bind, EStateM.bind] at h
  split at h
  case h_1 a t _ => exact hf a h
  case h_2 hr => cases h; exact hx hr

theorem Raises.onStore {x : Act Store α} (hx : Raises P x) : Raises P (Image.onStore x) := by
  intro i fault i' h
  simp only [Image.onStore] at h
  split at h <;> cases h
  case h_2 hr => exact hx hr

theorem Raises.imp {Q : Fault → Prop} (hx : Raises P x) (h : ∀ fault, P fault → Q fault) :
    Raises Q x :=
  fun _ _ _ he => h _ (hx he)

end Act

-- The only fault of an allocation.
def Fault.IsExhaustion (fault : Fault) : Prop :=
  ∃ n, fault = .heapExhausted n

namespace Store

theorem alloc_raises {v w : Value} : (alloc v w).Raises Fault.IsExhaustion := by
  intro s fault s' h
  by_cases hr : s.HasRoom
  case pos =>
    obtain ⟨id, t, ha⟩ := alloc_of_hasRoom (a := v) (b := w) hr
    cases ha.symm.trans h
  case neg =>
    cases (alloc_of_not_hasRoom hr).symm.trans h
    exact ⟨_, rfl⟩

theorem consAll_raises {vs : List Value} {v : Value} :
    (consAll vs v).Raises Fault.IsExhaustion := by
  induction vs generalizing v
  case nil => exact .pure
  case cons hi => exact .bind (.bind alloc_raises fun _ => .pure) fun _ => hi

end Store

namespace Image

theorem buildOn_raises {seen : List Value} {d : Datum} :
    (buildOn seen d).Raises Fault.IsExhaustion := by
  induction d generalizing seen
  case pair hi hi' => exact .bind hi fun _ => hi'
  case string =>
    refine .bind (.onStore fun _ _ _ h => ?_) fun _ => .onStore Store.consAll_raises
    cases h
  case symbol => exact .bind (fun _ _ _ h => by cases h) fun _ => .onStore Store.consAll_raises
  all_goals exact .onStore Store.consAll_raises

theorem build_raises {d : Datum} : (build d).Raises Fault.IsExhaustion :=
  buildOn_raises

theorem forIn_raises {ds : List Datum} :
    (forIn ds PUnit.unit fun d _ => EStateM.bind (discard (build d)) fun _ =>
      pure (ForInStep.yield PUnit.unit) : Act Image PUnit).Raises Fault.IsExhaustion := by
  induction ds
  case nil => exact .pure
  case cons d ds hi =>
    rw [List.forIn_cons]
    refine .bind (.bind (.bind build_raises fun _ => .pure) fun _ => .pure) fun r => ?_
    cases r
    case done => exact .pure
    case yield => exact hi

theorem reject_raises {α : Type} {defect : Defect} : (reject defect : Act Image α).Raises
    fun fault => fault.IsExhaustion ∨ fault = .unreadable defect.cause := by
  refine .bind (forIn_raises.imp fun _ => .inl) fun _ => ?_
  intro _ _ _ h
  cases h
  exact .inr rfl

-- A rejection is the same whatever was to be read.
theorem reject_fails (defect : Defect) (i : Image) : ∃ fault i', ∀ α : Type,
    (reject defect : Act Image α) i = .error fault i' := by
  unfold reject
  simp only [Bind.bind, EStateM.bind]
  split
  case h_1 i' _ => exact ⟨_, i', fun _ => rfl⟩
  case h_2 fault i' _ => exact ⟨fault, i', fun _ => rfl⟩

end Image

namespace Reader

-- What a text holds: its data, each with the text behind it, and the defect that ended them if
-- there was one.
inductive Holds : List Char → List (Datum × List Char) → Option Defect → Prop
  | ended {cs} : next cs = .ok none → Holds cs [] none
  | defective {cs defect} : next cs = .error defect → Holds cs [] (some defect)
  | datum {cs d rest ds defect} :
    next cs = .ok (some (d, rest)) → Holds rest ds defect → Holds cs ((d, rest) :: ds) defect

variable {cs text rest rest' before behind : List Char} {d : Datum} {ds : List (Datum × List Char)}
  {defect : Option Defect} {fuel : Nat}

-- Every datum takes at least one character.
theorem exists_holds (cs : List Char) : ∃ ds defect, Holds cs ds defect := by
  induction hn : cs.length using Nat.strong_induction_on generalizing cs
  case h n hi =>
    rcases hc : next cs with defect | _ | ⟨d, rest⟩
    case error => exact ⟨_, _, .defective hc⟩
    case ok.none => exact ⟨_, _, .ended hc⟩
    case ok.some =>
      have hl := (next_eq_some_iff.mp hc).length_lt
      have ⟨ds, defect, h⟩ := hi rest.length (hn ▸ hl) rest rfl
      exact ⟨_, _, .datum hc h⟩

-- What is behind a datum is the end of what is behind any datum before it.
theorem Holds.pairwise (h : Holds cs ds defect) : (cs :: ds.map Prod.snd).Pairwise
    fun cs rest => rest <:+ cs ∧ rest.length < cs.length := by
  induction h
  case datum hn _ hi =>
    have hr := next_eq_some_iff.mp hn
    refine .cons (fun behind hb => ?_) hi
    obtain rfl | hb := List.mem_cons.mp hb
    · exact ⟨hr.suffix, hr.length_lt⟩
    · have ⟨hs, hl⟩ := List.rel_of_pairwise_cons hi hb
      exact ⟨hs.trans hr.suffix, Nat.lt_trans hl hr.length_lt⟩
  all_goals exact List.pairwise_singleton ..

theorem Holds.allFrom_eq {seen : List Datum} (h : Holds cs ds defect) (hf : cs.length < fuel) :
    allFrom fuel seen cs = ⟨seen.reverse ++ ds.map Prod.fst, defect⟩ := by
  induction h generalizing fuel seen <;> obtain _ | fuel := fuel <;> try omega
  case ended.succ hn => simp [allFrom, hn]
  case defective.succ hn => simp [allFrom, hn]
  case datum.succ hn _ hi =>
    have hl := (next_eq_some_iff.mp hn).length_lt
    simp [allFrom, hn, hi (show _ < fuel by omega)]

theorem Holds.all_eq (h : Holds cs ds defect) : all cs = ⟨ds.map Prod.fst, defect⟩ :=
  h.allFrom_eq (Nat.lt_succ_self _)

-- The position in a text at which its end starts.
def position (text rest : List Char) : Nat :=
  byteLength text - byteLength rest

theorem position_self : position text text = 0 :=
  Nat.sub_self _

theorem position_append : position (before ++ rest) rest = byteLength before := by
  rw [position, byteLength_append]
  omega

theorem position_lt (hs : rest <:+ text) (hs' : rest' <:+ rest) (hl : rest'.length < rest.length) :
    position text rest < position text rest' := by
  obtain ⟨before, rfl⟩ := hs
  obtain ⟨used, rfl⟩ := hs'
  have hu : used ≠ [] := by
    rintro rfl
    exact absurd hl (Nat.lt_irrefl _)
  obtain ⟨c, used, rfl⟩ := List.exists_cons_of_ne_nil hu
  rw [position_append, ← List.append_assoc, position_append, byteLength_append, byteLength_cons]
  have := c.utf8Size_pos
  omega

-- A position in a text does not matter but for what is behind it.
theorem nextAt_position (hs : rest <:+ text) : nextAt text (position text rest) =
    match next rest with
    | .ok none => .ok none
    | .ok (some (d, behind)) => .ok (some (d, position text behind))
    | .error defect => .error defect := by
  obtain ⟨before, rfl⟩ := hs
  rw [position_append, nextAt_append]
  rcases hn : next rest with _ | _ | ⟨d, behind⟩ <;> try rfl
  have ⟨used, hu⟩ := (next_eq_some_iff.mp hn).suffix
  simp only [position, ← hu, byteLength_append, Except.ok.injEq, Option.some.injEq,
    Prod.mk.injEq, true_and]
  omega

theorem Holds.walkFrom_eq (seen : List (Datum × Nat)) (h : Holds rest ds defect)
    (hs : rest <:+ text) (hf : rest.length < fuel) :
    walkFrom text fuel seen (position text rest) =
      ⟨seen.reverse ++ ds.map (Prod.map id (position text)), defect⟩ := by
  induction h generalizing fuel seen <;> obtain _ | fuel := fuel <;> try omega
  case ended.succ hn => simp [walkFrom, nextAt_position hs, hn]
  case defective.succ hn => simp [walkFrom, nextAt_position hs, hn]
  case datum.succ hn _ hi =>
    have hr := next_eq_some_iff.mp hn
    have hl := hr.length_lt
    simp [walkFrom, nextAt_position hs, hn, hi _ (hr.suffix.trans hs) (show _ < fuel by omega)]

theorem Holds.walk_eq (h : Holds text ds defect) :
    walk text = ⟨ds.map (Prod.map id (position text)), defect⟩ := by
  have hw := h.walkFrom_eq [] List.suffix_rfl (Nat.lt_succ_self _)
  rwa [position_self] at hw

theorem Holds.suffix (h : Holds text ds defect) (hb : behind ∈ text :: ds.map Prod.snd) :
    behind <:+ text := by
  obtain rfl | hb := List.mem_cons.mp hb
  · exact List.suffix_rfl
  · exact (List.rel_of_pairwise_cons h.pairwise hb).left

-- Positions grow from datum to datum.
theorem Holds.positions (h : Holds text ds defect) :
    ((text :: ds.map Prod.snd).map (position text)).Pairwise (· < ·) := by
  refine List.pairwise_map.mpr <| h.pairwise.imp_of_mem fun hr _ hb => ?_
  exact position_lt (h.suffix hr) hb.left hb.right

end Reader

namespace Image

open Reader

-- Reads one datum after another, each from where the one before has ended, up to the end or to the
-- first fault.
inductive Exhausts {σ : Type} (read : σ → Act Image (Option (Value × σ))) :
    σ → Image → List (Value × σ) → Option Fault → Image → Prop
  | ended {here i i'} : read here i = .ok none i' → Exhausts read here i [] none i'
  | failed {here i fault i'} :
    read here i = .error fault i' → Exhausts read here i [] (some fault) i'
  | datum {here i v behind i' found fault i''} :
    read here i = .ok (some (v, behind)) i' → Exhausts read behind i' found fault i'' →
    Exhausts read here i ((v, behind) :: found) fault i''

-- The next datum of a text and the text behind it.
def readNext (cs : List Char) : Act Image (Option (Value × List Char)) :=
  match next cs with
  | .ok (some (d, rest)) => do return some (← build d, rest)
  | .ok none => return none
  | .error defect => reject defect

-- What a pass over a whole text returns.
def outcome (found : List Value) (i : Image) :
    Option Fault → EStateM.Result Fault Image (List Value)
  | none => .ok found i
  | some fault => .error fault i

variable {cs text rest behind : List Char} {i i' : Image} {v : Value} {fault : Option Fault}
  {ds : List (Datum × List Char)} {defect : Option Defect} {found : List (Value × List Char)}

theorem suffix_of_readNext (h : readNext cs i = .ok (some (v, rest)) i') : rest <:+ cs := by
  rcases hn : next cs with defect | _ | ⟨d, behind⟩ <;> simp only [readNext, hn] at h
  case error =>
    have ⟨_, _, hf⟩ := reject_fails defect i
    cases (hf _).symm.trans h
  case ok.none => cases h
  case ok.some =>
    rcases hb : build d i with ⟨v', t⟩ | ⟨f, t⟩ <;>
      simp only [Bind.bind, EStateM.bind, hb, Pure.pure, EStateM.pure] at h <;> cases h
    exact (next_eq_some_iff.mp hn).suffix

theorem readAt_position (hs : rest <:+ text) : readAt text (position text rest) =
    (Option.map (Prod.map id (position text)) <$> readNext rest) := by
  rcases hn : next rest with defect | _ | ⟨d, behind⟩ <;>
    simp only [Image.readAt, readNext, nextAt_position hs, hn, map_pure, map_bind] <;> try rfl
  funext i
  obtain ⟨_, _, hf⟩ := reject_fails defect i
  simp only [Functor.map, EStateM.map, hf]

theorem readNext_raises : (readNext cs).Raises (· ≠ .unreadable .positionOutOfRange) := by
  have hx (fault : Fault) (h : fault.IsExhaustion) : fault ≠ .unreadable .positionOutOfRange := by
    obtain ⟨n, rfl⟩ := h
    simp
  rcases hn : next cs with defect | _ | ⟨d, behind⟩ <;> simp only [readNext, hn]
  case error =>
    refine reject_raises.imp fun fault h => ?_
    obtain h | rfl := h
    · exact hx _ h
    · intro h
      have hs := (next_bounded hn).isSyntactic
      rw [Fault.unreadable.inj h] at hs
      cases hs
  case ok.none => exact .pure
  case ok.some => exact .bind (build_raises.imp hx) fun _ => .pure

theorem buildAll_cons {d : Datum} {ds : List Datum} (hb : build d i = .ok v i') :
    buildAll ⟨d :: ds, defect⟩ i = ((v :: ·) <$> buildAll ⟨ds, defect⟩) i' := by
  simp only [buildAll, List.mapM_cons, Functor.map, EStateM.map, Bind.bind, EStateM.bind, hb]
  rcases ds.mapM build i' with ⟨vs, t⟩ | ⟨fault, t⟩ <;> try rfl
  cases defect
  case none => rfl
  case some defect =>
    have ⟨_, _, hf⟩ := reject_fails defect t
    simp only [Pure.pure, EStateM.pure, hf]

theorem exhausts_of_holds (h : Holds cs ds defect) (i : Image) : ∃ found fault i',
    Exhausts readNext cs i found fault i' ∧ found.map Prod.snd <+: ds.map Prod.snd ∧
      buildAll ⟨ds.map Prod.fst, defect⟩ i = outcome (found.map Prod.fst) i' fault := by
  induction h generalizing i
  case ended hn => exact ⟨[], none, i, .ended (by rw [readNext, hn]; rfl), List.nil_prefix, rfl⟩
  case defective defect hn =>
    have ⟨fault, i', hf⟩ := reject_fails defect i
    exact ⟨[], fault, i', .failed (by simp only [readNext, hn, hf]), List.nil_prefix, hf _⟩
  case datum d rest ds defect hn _ hi =>
    rcases hb : build d i with ⟨v, t⟩ | ⟨fault, t⟩
    case ok =>
      have ⟨found, fault, i', he, hp, hr⟩ := hi t
      refine ⟨(v, rest) :: found, fault, i', .datum ?_ he, List.cons_prefix_cons.mpr ⟨rfl, hp⟩, ?_⟩
      · simp only [readNext, hn, Bind.bind, EStateM.bind, hb]
        rfl
      · rw [List.map_cons, buildAll_cons hb]
        simp only [Functor.map, EStateM.map, hr]
        cases fault <;> rfl
    case error =>
      refine ⟨[], fault, t, .failed ?_, List.nil_prefix, ?_⟩
      · simp only [readNext, hn, Bind.bind, EStateM.bind, hb]
      · simp only [buildAll, List.map_cons, List.mapM_cons, Bind.bind, EStateM.bind, hb]
        rfl

theorem Exhausts.readAt (h : Exhausts readNext rest i found fault i') (hs : rest <:+ text) :
    Exhausts (readAt text) (position text rest) i (found.map (Prod.map id (position text)))
      fault i' := by
  have hr (rest i) (hs : rest <:+ text) : Image.readAt text (position text rest) i =
      (Option.map (Prod.map id (position text)) <$> readNext rest) i := by
    rw [readAt_position hs]
  induction h
  case ended h => exact .ended (by rw [hr _ _ hs]; simp [Functor.map, EStateM.map, h])
  case failed h => exact .failed (by rw [hr _ _ hs]; simp [Functor.map, EStateM.map, h])
  case datum h _ hi =>
    refine .datum ?_ (hi <| (suffix_of_readNext h).trans hs)
    rw [hr _ _ hs]
    simp [Functor.map, EStateM.map, h]

theorem Exhausts.fault_ne (h : Exhausts readNext cs i found fault i') :
    fault ≠ some (.unreadable .positionOutOfRange) := by
  induction h
  case ended => nofun
  case failed h => exact fun hf => readNext_raises h (Option.some.inj hf)
  case datum hi => exact hi

theorem map_snd_map {α β γ : Type} {f : β → γ} (l : List (α × β)) :
    (l.map (Prod.map id f)).map Prod.snd = (l.map Prod.snd).map f := by
  simp [Function.comp_def]

-- The text is walked with a position in between, and passed over once. The image may run out of
-- cells at any datum, so what is found may fall short of what the text holds.
theorem readAll_eq_walk (text : String) (i : Image) :
    let walked := walk text.toList
    walked.data.map Prod.fst = (all text.toList).data ∧
    walked.defect = (all text.toList).defect ∧
    (0 :: walked.data.map Prod.snd).Pairwise (· < ·) ∧
    (∀ pos ∈ walked.data.map Prod.snd, ∃ before behind,
      text.toList = before ++ behind ∧ pos = (bytes before).length) ∧
    ∃ (found : List (Value × Nat)) (passed : List (Value × List Char)) (fault : Option Fault)
        (i' : Image),
      Exhausts (readAt text.toList) 0 i found fault i' ∧
      Exhausts readNext text.toList i passed fault i' ∧
      found.map Prod.fst = passed.map Prod.fst ∧
      found.map Prod.snd <+: walked.data.map Prod.snd ∧
      readAll text i = outcome (found.map Prod.fst) i' fault ∧
      fault ≠ some (.unreadable .positionOutOfRange) := by
  have ⟨ds, defect, h⟩ := exists_holds text.toList
  have ⟨passed, fault, i', hp, hd, hb⟩ := exhausts_of_holds h i
  have hf := hp.readAt List.suffix_rfl
  rw [position_self] at hf
  have hv : (passed.map (Prod.map id (position text.toList))).map Prod.fst =
      passed.map Prod.fst := by simp
  simp only [h.walk_eq, h.all_eq, readAll, map_snd_map]
  refine ⟨by simp, trivial, ?_, ?_, _, passed, fault, i', hf, hp, hv, ?_, hv ▸ hb, hp.fault_ne⟩
  · have ho := h.positions
    rwa [List.map_cons, position_self] at ho
  · intro pos hm
    obtain ⟨behind, hb, rfl⟩ := List.mem_map.mp hm
    obtain ⟨before, he⟩ := h.suffix (List.mem_cons_of_mem _ hb)
    exact ⟨before, behind, he.symm, by rw [length_bytes, ← he, position_append]⟩
  · rw [map_snd_map]
    exact hd.map _

end Image
end StepLisp
