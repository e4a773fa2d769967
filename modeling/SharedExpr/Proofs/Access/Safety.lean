import Mathlib
import SharedExpr.Proofs.Access.Gradient
import SharedExpr.Proofs.Access.Lowering
import SharedExpr.Proofs.Access.Print

/-! Calls that check their nodes come to an end and make no access out of range, whatever numbers
they get. -/
namespace SharedExpr.Dag

variable {α : Type} [Scalar α] {d : Dag α} {root : NodeId}

/-- An answer is a misuse if one of the given numbers is foreign to the graph. -/
def Refuses {β : Type} (d : Dag α) (ids : List NodeId) (answer : Except Fault β) : Prop :=
  (∃ id ∈ ids, ¬ id < d.count) → ∃ cause, answer = .error (.misuse cause)

theorem refuses_singleton {β : Type} {answer : Except Fault β}
    (h : ¬ root < d.count → answer = .error (.foreign root)) : d.Refuses [root] answer := by
  rintro ⟨id, hid, hlt⟩
  obtain rfl := List.mem_singleton.1 hid
  exact ⟨.foreign id, h hlt⟩

theorem refuses_forM {ids : List NodeId} {f : NodeId → Except Fault Unit}
    (hok : ∀ id, f id = .ok () → id < d.count)
    (herr : ∀ id fault, f id = .error fault → ∃ cause, fault = .misuse cause) :
    d.Refuses ids (ids.forM f) := by
  rintro ⟨id, hid, hlt⟩
  cases hf : ids.forM f with
  | ok => exact absurd (hok id (forM_eq_ok_iff.1 hf id hid)) hlt
  | error fault =>
    obtain ⟨_, x, _, _, _, hx⟩ := forM_eq_error hf
    obtain ⟨cause, rfl⟩ := herr x fault hx
    exact ⟨cause, rfl⟩

theorem check_eq_error {id : NodeId} {fault : Fault} (h : d.check id = .error fault) :
    ∃ cause, fault = .misuse cause := by
  by_cases hid : id < d.count
  · cases (check_of_lt hid).symm.trans h
  · exact ⟨.foreign id, Except.error.inj (h.symm.trans (check_of_not_lt hid))⟩

theorem checkVariable_eq_error {id : NodeId} {fault : Fault}
    (h : d.checkVariable id = .error fault) : ∃ cause, fault = .misuse cause := by
  rw [checkVariable] at h
  cases hc : d.check id with
  | error fault' =>
    rw [hc] at h
    exact check_eq_error (hc.trans (congrArg _ (Except.error.inj h)))
  | ok =>
    rw [hc] at h
    cases hn : d.name? id with
    | some name => simp [hn, bind, Except.bind, pure, Except.pure] at h
    | none =>
      simp [hn, bind, Except.bind, throw, throwThe, MonadExceptOf.throw] at h
      exact ⟨_, h.symm⟩

theorem checkBundle_eq_error {parts : Bundle} {fault : Fault}
    (h : d.checkBundle parts = .error fault) : ∃ cause, fault = .misuse cause := by
  by_cases hlen : parts.partials.length = parts.vars.length
  · rw [checkBundle_eq hlen] at h
    cases hp : (parts.primal :: parts.partials).forM d.check with
    | error fault' =>
      rw [hp] at h
      obtain ⟨_, x, _, _, _, hx⟩ := forM_eq_error hp
      exact check_eq_error (hx.trans (congrArg _ (Except.error.inj h)))
    | ok =>
      rw [hp] at h
      obtain ⟨_, v, _, _, _, hv⟩ := forM_eq_error h
      exact checkVariable_eq_error hv
  · rw [checkBundle, if_pos hlen] at h
    exact ⟨_, (Except.error.inj h).symm⟩

theorem refuses_tryBuild (app : Application) :
    d.Refuses app.operands (app.tryBuild d : Except Fault NodeId × Dag α).1 := by
  intro hids
  obtain ⟨cause, hc⟩ :=
    refuses_forM (f := d.check) (fun _ => lt_of_check) (fun _ _ => check_eq_error) hids
  refine ⟨cause, ?_⟩
  rw [Application.tryBuild, hc]

theorem refuses_bundle (parts : Bundle) :
    d.Refuses (parts.primal :: parts.partials ++ parts.vars)
      (parts.build d : Except Fault NodeId × Dag α).1 := by
  rintro ⟨id, hid, hlt⟩
  rw [Bundle.build]
  cases hc : d.checkBundle parts with
  | error fault =>
    obtain ⟨cause, rfl⟩ := checkBundle_eq_error hc
    exact ⟨cause, rfl⟩
  | ok =>
    obtain ⟨-, hp, hps, hvs⟩ := checkBundle_eq_ok_iff.1 hc
    rcases List.mem_append.1 hid with hid | hid
    · rcases List.mem_cons.1 hid with rfl | hid
      · exact absurd hp hlt
      · exact absurd (hps id hid) hlt
    · exact absurd (lt_of_isSome_name? (hvs id hid)) hlt

theorem backward_of_foreign (hroot : ¬ root < d.count) :
    (backward root d : Except Fault NodeId × Dag α).1 = .error (.foreign root) := by
  rw [backward, checkRoot, check_of_not_lt hroot]
  rfl

theorem evaluateAt_of_foreign (hroot : ¬ root < d.count) (values : List α) :
    d.evaluateAt root values = .error (.foreign root) := by
  rw [evaluateAt, bindingsAt_of_foreign hroot]
  rfl

theorem evaluateGradient_of_foreign (hroot : ¬ root < d.count) (b : Bindings α) :
    d.evaluateGradient root b = .error (.foreign root) := by
  rw [evaluateGradient, evaluateAll, check_of_not_lt hroot]
  rfl

theorem sample_of_foreign (hroot : ¬ root < d.count) (var : String) {xs : List α} (hxs : xs ≠ [])
    (b : Bindings α) : d.sample root var xs b = .error (.foreign root) := by
  obtain ⟨x, xs, rfl⟩ := List.exists_cons_of_ne_nil hxs
  rw [sample, List.mapM_cons, evaluate_of_foreign hroot]
  rfl

variable [ScalarText α]

theorem code_of_foreign (hroot : ¬ root < d.count) (options : CodeOptions) :
    d.code root options = .error (.foreign root) := by
  rw [code, Lowering.program_of_foreign hroot]
  rfl

/-- Calls that check their nodes come to an end with every access in range, on every graph that
operations lead to and for any numbers, those of nodes or not; and each answer is the one given
without regard to accesses. With a foreign number among those of a call the answer, if it can be a
failure, is a misuse; only to sample no points at all is never one. -/
theorem Reachable.accesses_in_range (h : d.Reachable) :
    (∀ app : Application, Access.tryApply app d = some (app.tryBuild d) ∧
      d.Refuses app.operands (app.tryBuild d : Except Fault NodeId × Dag α).1) ∧
    (∀ parts : Bundle, Access.gradient parts d = some (parts.build d) ∧
      d.Refuses (parts.primal :: parts.partials ++ parts.vars)
        (parts.build d : Except Fault NodeId × Dag α).1) ∧
    ∀ root : NodeId,
      (Access.backward root d = some (backward root d) ∧
        d.Refuses [root] (backward root d : Except Fault NodeId × Dag α).1) ∧
      (∀ b (l : Ledger α), (∃ l', Access.evaluate d root b l = some (d.evaluate root b, l')) ∧
        d.Refuses [root] (d.evaluate root b)) ∧
      (∀ values (l : Ledger α),
        (∃ l', Access.evaluateAt d root values l = some (d.evaluateAt root values, l')) ∧
        d.Refuses [root] (d.evaluateAt root values)) ∧
      (∀ b, Access.evaluateGradient d root b = some (d.evaluateGradient root b) ∧
        d.Refuses [root] (d.evaluateGradient root b)) ∧
      (∀ var xs b, Access.sample d root var xs b = some (d.sample root var xs b) ∧
        (xs ≠ [] → d.Refuses [root] (d.sample root var xs b)) ∧
        d.sample root var [] b = .ok []) ∧
      (∀ options, Access.program d root options = some (d.program root options) ∧
        d.Refuses [root] (d.program root options)) ∧
      (∀ options, Access.code d root options = some (d.code root options) ∧
        d.Refuses [root] (d.code root options)) ∧
      (∀ l : Ledger α, ∃ m, l.Shows m ∧
        Access.outlineText d l root = some (d.outlineText m root)) ∧
      Access.display d root = some (d.display root) := by
  have hd := h.lawful
  refine ⟨fun app => ⟨Access.tryApply_eq hd app, refuses_tryBuild app⟩,
    fun parts => ⟨Access.gradient_eq hd.wellFormed parts, refuses_bundle parts⟩, fun root =>
    ⟨⟨Access.backward_eq hd root, refuses_singleton backward_of_foreign⟩,
      fun b l => ⟨?_, refuses_singleton fun hr => evaluate_of_foreign hr b⟩,
      fun values l => ⟨?_, refuses_singleton fun hr => evaluateAt_of_foreign hr values⟩,
      fun b => ⟨Access.evaluateGradient_eq hd root b,
        refuses_singleton fun hr => evaluateGradient_of_foreign hr b⟩,
      fun var xs b => ⟨Access.sample_eq hd root var xs b,
        fun hxs => refuses_singleton fun hr => sample_of_foreign hr var hxs b, rfl⟩,
      fun options => ⟨Access.program_eq hd root options,
        refuses_singleton Lowering.program_of_foreign⟩,
      fun options => ⟨Access.code_eq hd root options,
        refuses_singleton fun hr => code_of_foreign hr options⟩,
      fun l => ?_, Access.display_eq hd root⟩⟩
  · obtain ⟨l', hl', -⟩ := Access.evaluate_eq hd root b l .empty
    exact ⟨l', evaluator_eq (d := d) .empty b ▸ hl'⟩
  · obtain ⟨m, hs⟩ := l.exists_shows
    obtain ⟨l', hl', -⟩ := Access.evaluateAt_eq hd hs root values
    exact ⟨l', evaluatorAt_eq (d := d) m values ▸ hl'⟩
  · obtain ⟨m, hs⟩ := l.exists_shows
    exact ⟨m, hs, Access.outlineText_eq hd hs root⟩

/-- Beside `x * y` there is no fourth node: to multiply by it or to lower it is refused, and it is
shown as invalid. The product itself is evaluated and differentiated within the graph. -/
theorem product_accesses_in_range :
    Access.tryApply (.binary .mul 1 3) product = some (.error (.foreign 3), product) ∧
    (∃ cause, product.program 3 {} = .error (.misuse cause)) ∧
    Access.display product 3 = some "<invalid NodeId(3)>" ∧
    (∃ l', Access.evaluate product 2 (fun _ => some Double.one) .empty =
      some (.ok (product.denote (fun _ => Double.one) 2), l')) ∧
    Access.backward 2 product = some (backward 2 product) := by
  obtain ⟨happly, -, hcalls⟩ := reachable_product.accesses_in_range
  obtain ⟨-, -, -, -, -, hprogram, -, -, hdisplay⟩ := hcalls 3
  obtain ⟨⟨hbackward, -⟩, hevaluate, -⟩ := hcalls 2
  have hmul : ((Application.binary .mul 1 3).tryBuild product :
      Except Fault NodeId × Dag Double) = (.error (.foreign 3), product) := by cbv
  have hlabel : product.label? 3 = none := by cbv
  have hinvalid : product.display 3 = "<invalid NodeId(3)>" := by
    rw [display, unfold, hlabel]
    decide
  have hcount : product.count = 3 := by cbv
  have hvalue : product.evaluate 2 (fun _ => some Double.one) =
      .ok (product.denote (fun _ => Double.one) 2) :=
    evaluate_eq reachable_product.lawful (by rw [hcount]; decide) fun _ _ _ _ => rfl
  exact ⟨(happly (.binary .mul 1 3)).1.trans (congrArg some hmul),
    (hprogram {}).2 ⟨3, List.mem_singleton_self 3, by rw [hcount]; decide⟩,
    hdisplay.trans (congrArg some hinvalid),
    hvalue ▸ (hevaluate (fun _ => some Double.one) .empty).1, hbackward⟩

end SharedExpr.Dag
