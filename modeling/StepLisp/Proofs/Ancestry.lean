import StepLisp.Proofs.Scoping

namespace StepLisp

namespace Store

variable {s : Store} {e p root : FrameId} {es : List FrameId} {x : Symbol} {n fuel : Nat}

-- `s.Chain e es`: the scopes from `e` up to one that has no parent.
inductive Chain (s : Store) : FrameId → List FrameId → Prop
  | last {e : FrameId} {f : Frame} : s.frame e = .ok f → f.parent = none → Chain s e [e]
  | link {e p : FrameId} {f : Frame} {es : List FrameId} :
      s.frame e = .ok f → f.parent = some p → Chain s p es → Chain s e (e :: es)

theorem present_eq_ok_iff {α : Type} {kind : Kind} {i : Nat} {found : Option α} {a : α} :
    present kind i found = .ok a ↔ found = some a := by
  cases found <;> simp [present]

theorem Within.chain (h : Within s.parents root e) :
    ∃ es, s.Chain e es ∧ es.getLast? = some root := by
  induction h
  case root hp =>
    have ⟨_, hf, hn⟩ := frame_of_parents hp
    exact ⟨_, .last hf hn, rfl⟩
  case child hp _ hi =>
    have ⟨_, hf, hn⟩ := frame_of_parents hp
    have ⟨es, hc, hl⟩ := hi
    exact ⟨_, .link hf hn hc, by rw [List.getLast?_cons, hl]; rfl⟩

namespace Chain

theorem walk (h : s.Chain e es) :
    Walk (fun e => ∀ f, s.frame e = .ok f → f.parent = none) s.parentOf e es := by
  induction h
  case last hf hp =>
    refine .stop fun f' hf' => ?_
    cases hf.symm.trans hf'
    exact hp
  case link f es hf hp _ hi =>
    refine .step (fun hn => ?_) ?_
    · cases hp.symm.trans (hn f hf)
    · simpa [parentOf, hf, hp] using hi

theorem lt_size (h : s.Chain e es) : ∀ e' ∈ es, e'.index < s.frames.entries.size := by
  have hlt {e : FrameId} {f : Frame} (hf : s.frame e = .ok f) :
      e.index < s.frames.entries.size := by
    exact Slab.lt_size_of_isSome <| by rw [present_eq_ok_iff.mp hf]; rfl
  induction h
  case last hf _ => simpa using hlt hf
  case link hf _ _ hi => exact List.forall_mem_cons.mpr ⟨hlt hf, hi⟩

theorem length_le (h : s.Chain e es) : es.length ≤ s.frames.entries.size :=
  Handle.length_le h.walk.nodup h.lt_size

end Chain

-- What a scope says of a name, whatever the scopes around it say.
def binding? (s : Store) (x : Symbol) (e : FrameId) : Option Value :=
  (s.frame e).toOption.bind (·.get? x)

theorem binding?_of_frame {f : Frame} (h : s.frame e = .ok f) : s.binding? x e = f.get? x := by
  rw [binding?, h]
  rfl

theorem binderFrom_of_chain (h : s.Chain e es) (hn : es.length ≤ fuel) :
    s.binderFrom x fuel e = .ok (es.find? fun e => (s.binding? x e).isSome) := by
  induction h generalizing fuel <;> obtain _ | fuel := fuel
  case last.zero | link.zero => cases hn
  case last.succ f hf hp =>
    have hb := binding?_of_frame (x := x) hf
    cases hx : f.get? x <;> simp [binderFrom, hf, hp, hx, hb, Bind.bind, Except.bind] <;> rfl
  case link.succ f _ hf hp _ hi =>
    have hb := binding?_of_frame (x := x) hf
    have hi := hi (Nat.le_of_succ_le_succ hn)
    cases hx : f.get? x
    case none => simp [binderFrom, hf, hp, hx, hb, hi, Bind.bind, Except.bind]
    case some => simp [binderFrom, hf, hx, hb, Bind.bind, Except.bind]; rfl

theorem binder?_of_chain (h : s.Chain e es) :
    s.binder? e x = .ok (es.find? fun e => (s.binding? x e).isSome) :=
  binderFrom_of_chain h <| Nat.le_succ_of_le h.length_le

-- The first scope that binds a name says what it means.
theorem bound_find? : s.bound x (es.find? fun e => (s.binding? x e).isSome) =
    .ok (es.findSome? (s.binding? x)) := by
  induction es
  case nil => rfl
  case cons e es hi =>
    rw [List.find?_cons, List.findSome?_cons]
    cases hb : s.binding? x e
    case none => exact hi
    case some v =>
      cases hf : s.frame e
      case error => simp [binding?, hf, Except.toOption] at hb
      case ok f =>
        have hs := bound_of_frame (x := x) hf
        rw [← binding?_of_frame hf, hb] at hs
        exact hs

theorem lookup?_of_chain (h : s.Chain e es) :
    s.lookup? e x = .ok (es.findSome? (s.binding? x)) := by
  rw [lookup?_eq, binder?_of_chain h]
  exact bound_find?

theorem ancestor_of_chain (h : s.Chain e es) :
    s.ancestor e n = es[n]?.elim (.error .noFrame) .ok := by
  induction h generalizing n <;> obtain _ | n := n
  case last.zero | link.zero => rfl
  case last.succ hf hp => simp [ancestor, hf, hp, Bind.bind, Except.bind]
  case link.succ hf hp _ hi => simp [ancestor, hf, hp, Bind.bind, Except.bind, hi]

theorem Chain.parent_eq_none_iff {f : Frame} (h : s.Chain e es) (hl : es.getLast? = some root)
    (hf : s.frame e = .ok f) : f.parent = none ↔ e = root := by
  cases h
  case last hp hf' =>
    cases hf.symm.trans hf'
    exact iff_of_true hp (Option.some.inj hl)
  case link p f' es hp hc hf' =>
    cases hf.symm.trans hf'
    have hn := (Chain.link hf' hp hc).walk.nodup
    refine iff_of_false (by simp [hp]) ?_
    rintro rfl
    refine (List.nodup_cons.mp hn).left <| List.mem_of_getLast? ?_
    cases hc <;> simpa using hl

-- A name that only the last scope of a chain binds means there what it means everywhere else.
theorem Chain.findSome?_eq (h : s.Chain e es) (hl : es.getLast? = some root)
    (hx : ∀ e' ∈ es, e' ≠ root → s.binding? x e' = none) :
    es.findSome? (s.binding? x) = s.binding? x root := by
  induction h
  case last => cases hl; simp
  case link e p f es hf hp hc hi =>
    have ⟨hxe, hxs⟩ := List.forall_mem_cons.mp hx
    have hn := (List.nodup_cons.mp (Chain.link hf hp hc).walk.nodup).left
    have hl : es.getLast? = some root := by cases hc <;> simpa using hl
    have he : e ≠ root := fun he => hn <| he ▸ List.mem_of_getLast? hl
    rw [List.findSome?_cons, hxe he, hi hl hxs]

end Store

namespace Image

variable {i : Image} {e : FrameId} {es : List FrameId} {x : Symbol} {v : Value}

theorem assign_of_chain (h : i.store.Chain e es) :
    (∃ i', assign e x v i = .ok () i') ∨
      assign e x v i = .error (.unbound (i.symbols.name x)) i := by
  have hg : (get : Act Image Image) i = .ok i i := rfl
  simp only [assign, Bind.bind, EStateM.bind, hg, Store.binder?_of_chain h, Act.ofExcept]
  cases hb : es.find? fun e => (i.store.binding? x e).isSome
  case none => exact .inr rfl
  case some b =>
    have hx := List.find?_some hb
    cases hf : i.store.frame b
    case error => simp [Store.binding?, hf, Except.toOption] at hx
    case ok f =>
      have hd : ∃ s, Store.define b x v i.store = .ok () s := by simp [Store.define, hf]
      exact .inl ⟨_, onStore_of_ok hd.choose_spec⟩

end Image

-- What a session holds on to between two requests, between two forms and between two steps.
def Stage.roots : Stage → List Ref
  | .idle m | .reading _ m => [m.global.ref]
  | .running _ _ next m => m.roots next

namespace Stage

def store (t : Stage) : Store :=
  t.machine.image.store

def Reaches (t : Stage) (r : Ref) : Prop :=
  t.store.Reachable t.roots r

-- The scopes that the machine holds on to, and those that objects within its reach hold on to.
inductive Scope : Stage → FrameId → Prop
  | global {t : Stage} : Scope t t.machine.global
  | env {rest n k m} : Scope (.running rest n k m) m.control.env
  | slot {rest n k m e} : .env e ∈ m.control.stack.slots → Scope (.running rest n k m) e
  | checkpoint {rest n k m c} :
      .trap c ∈ m.control.stack.slots → Scope (.running rest n k m) c.env
  | closure {t : Stage} {id c} : t.Reaches id.ref → t.store.closure id = .ok c → Scope t c.env
  | continuation {t : Stage} {id c} :
      t.Reaches id.ref → t.store.continuation id = .ok c → Scope t c.env
  | savedSlot {t : Stage} {id c e} : t.Reaches id.ref → t.store.continuation id = .ok c →
      .env e ∈ c.stack.slots → Scope t e
  | savedCheckpoint {t : Stage} {id c p} : t.Reaches id.ref → t.store.continuation id = .ok c →
      .trap p ∈ c.stack.slots → Scope t p.env
  | frame {t : Stage} {e} : t.Reaches e.ref → Scope t e
  | parent {t : Stage} {e f p} : t.Reaches e.ref → t.store.frame e = .ok f → f.parent = some p →
      Scope t p

variable {t : Stage} {e : FrameId}

theorem Scope.reaches (h : t.Scope e) : t.Reaches e.ref := by
  have control {rest n k m r} (h : r ∈ m.control.roots) : (Stage.running rest n k m).Reaches r :=
    .root <| Machine.mem_roots_of_control h
  cases h
  case global =>
    refine .root ?_
    cases t <;> simp [roots, Stage.machine, Machine.roots]
  case env => exact control <| by simp [Control.roots]
  case slot h =>
    refine control <| List.mem_append_right _ <| List.mem_cons_of_mem _ ?_
    exact List.mem_flatMap.mpr ⟨_, h, List.mem_singleton_self _⟩
  case checkpoint h =>
    refine control <| List.mem_append_right _ <| List.mem_cons_of_mem _ ?_
    exact List.mem_flatMap.mpr ⟨_, h, List.mem_cons_self⟩
  case closure hr hc =>
    refine hr.step ?_
    simp [Store.refs, Handle.ref, Store.present_eq_ok_iff.mp hc, Store.refsOf, Closure.refs]
  case continuation hr hc =>
    refine hr.step ?_
    simp [Store.refs, Handle.ref, Store.present_eq_ok_iff.mp hc, Store.refsOf, Continuation.refs]
  case savedSlot hr hc h =>
    refine hr.step ?_
    simp only [Store.refs, Handle.ref, Store.present_eq_ok_iff.mp hc, Store.refsOf]
    refine List.mem_append_left _ <| List.mem_append_left _ ?_
    exact List.mem_flatMap.mpr ⟨_, h, List.mem_singleton_self _⟩
  case savedCheckpoint h hr hc =>
    refine hr.step ?_
    simp only [Store.refs, Handle.ref, Store.present_eq_ok_iff.mp hc, Store.refsOf]
    refine List.mem_append_left _ <| List.mem_append_left _ ?_
    exact List.mem_flatMap.mpr ⟨_, h, List.mem_cons_self⟩
  case frame h => exact h
  case parent hr hf hp =>
    refine hr.step ?_
    simp [Store.refs, Handle.ref, Store.present_eq_ok_iff.mp hf, Store.refsOf, Frame.refs, hp]

-- Whatever a session reaches is there.
theorem exists_frame (h : Reached t) (he : t.Reaches e.ref) :
    ∃ f, t.store.object? e.ref = some (.frame f) := by
  have hi := Machine.whole_invariant.holds h
  cases t
  case idle m | reading _ m =>
    obtain ⟨_, ρ, hm⟩ := hi
    have hr := hm.image.store.rel_of_reachable (List.forall_mem_singleton.mpr hm.global) he
    have ⟨f, _, hf, _⟩ := hm.image.store.frame hr
    exact ⟨f, hf⟩
  case running =>
    obtain ⟨_, ρ, hm, hk⟩ := hi
    have ⟨f, _, hf, _⟩ := hm.image.store.frame (hm.rel_of_reachable hk he)
    exact ⟨f, hf⟩

theorem scopedIn (h : Reached t) : t.store.ScopedIn t.machine.global := by
  have hi := Machine.scoped_invariant.holds h
  cases t <;> exact hi.right

end Stage

open Stage

-- From every scope that a session holds on to the way up ends at the global scope, which is the
-- only one without a parent. So all lookups come to an end, and what is bound nowhere else is seen
-- there.
theorem leads_to_global {t : Stage} {e : FrameId} (h : Reached t) (he : t.Scope e) :
    ∃ es, t.store.Chain e es ∧ es.getLast? = some t.machine.global ∧
      (∀ f, t.store.frame e = .ok f → (f.parent = none ↔ e = t.machine.global)) ∧
      (∀ n, t.store.ancestor e n = es[n]?.elim (.error .noFrame) .ok) ∧
      ∀ x, t.store.lookup? e x = .ok (es.findSome? (t.store.binding? x)) ∧
        t.store.binder? e x = .ok (es.find? fun e' => (t.store.binding? x e').isSome) ∧
        (∀ v, (∃ i, Image.assign e x v t.machine.image = .ok () i) ∨
          Image.assign e x v t.machine.image =
            .error (.unbound (t.machine.image.symbols.name x)) t.machine.image) ∧
        ((∀ e', e' ≠ t.machine.global → t.store.binding? x e' = none) →
          t.store.lookup? e x = .ok (t.store.binding? x t.machine.global)) := by
  have ⟨f, hf⟩ := exists_frame h he.reaches
  have ⟨es, hc, hl⟩ := (scopedIn h e <| Store.isSome_parents hf).chain
  refine ⟨es, hc, hl, fun _ hf => hc.parent_eq_none_iff hl hf, fun _ => Store.ancestor_of_chain hc,
    fun x => ⟨Store.lookup?_of_chain hc, Store.binder?_of_chain hc,
      fun _ => Image.assign_of_chain hc, fun hx => ?_⟩⟩
  rw [Store.lookup?_of_chain hc, hc.findSome?_eq hl fun e' _ => hx e']

-- Two closures are applied one after the other. The scope of the first has been given up by the
-- time the second one is entered, which is in a scope of the same number.
def reusing (m : Machine) : Bool :=
  match Stage.next^[14]
    (.reading (Reader.walk "((lambda (x) x) 1) ((lambda (y) y) 2)".toList) m) with
  | .running _ _ .eval m₁ => m₁.control.env != m₁.global
  | _ => false

theorem leads_to_global_reused : ∃ rest n m es, Reached (.running rest n .eval m) ∧
    m.control.env ≠ m.global ∧ m.image.store.Chain m.control.env es ∧
    es.getLast? = some m.global := by
  obtain ⟨m, hb, ht⟩ :=
    Machine.exists_bare_of { gcThreshold := 1 } default {} reusing (by decide +kernel)
  have h₀ : Reached (.reading (Reader.walk "((lambda (x) x) 1) ((lambda (y) y) 2)".toList) m) :=
    reached_request (.bare hb) _
  unfold reusing at ht
  split at ht
  case h_2 => cases ht
  case h_1 rest n m₁ hA =>
    have hr : Reached (.running rest n .eval m₁) := hA ▸ h₀.iterate 14
    have ⟨es, hc, hl, _⟩ := leads_to_global hr .env
    exact ⟨rest, n, m₁, es, hr, by simpa using ht, hc, hl⟩

end StepLisp
