import Mathlib
import SharedExpr.Double.Text
import SharedExpr.Proofs.Code.Completion
import SharedExpr.Proofs.Gradient.Confinement
import SharedExpr.Proofs.Session

/-! A gradient has the variables of its root, so that it is evaluated and called as its root is. -/
namespace SharedExpr

variable {α : Type} [Scalar α] {d d' : Dag α} {root g : NodeId} {partials : List NodeId}

namespace Dag.Bundled

theorem lawful (hb : d.Bundled root g partials d') (h : d.Lawful) : d'.Lawful :=
  hb.grows.lawful h

theorem lt_count (hb : d.Bundled root g partials d') : g < d'.count :=
  lt_of_node? (bundle?_eq_some_iff.1 hb.bundle?)

theorem part_lt (hb : d.Bundled root g partials d') (h : d.Lawful) :
    ∀ x ∈ root :: partials, x < d'.count := fun _ hx =>
  (hb.lawful h).wellFormed.lt_of_mem_operands (bundle?_eq_some_iff.1 hb.bundle?) hx

theorem reaches_part (hb : d.Bundled root g partials d') :
    ∀ x ∈ root :: partials, d'.Reaches g x := fun _ hx =>
  (reaches_iff_of_node? (bundle?_eq_some_iff.1 hb.bundle?)).2 (Or.inr ⟨_, hx, .refl⟩)

/-- What variables and gradients there are under the parts of the gradient are under the root. -/
theorem source_reached (hb : d.Bundled root g partials d') {x v : NodeId}
    (hx : x ∈ root :: partials) (hv : d'.Reaches x v) (hs : d'.IsSource v) : d'.Reaches root v := by
  rcases List.mem_cons.1 hx with rfl | hx
  · exact hv
  · obtain ⟨y, hy, hr⟩ := hb.confined x hx v hv hs
    exact List.mem_singleton.1 hy ▸ hr

theorem reaches_root_iff (hb : d.Bundled root g partials d') (h : d.Lawful) {v : NodeId} :
    d'.Reaches root v ↔ d.Reaches root v :=
  (hb.grows.extends_ h).reaches_iff h.wellFormed hb.root_lt

theorem part_not_gradient (hb : d.Bundled root g partials d') (h : d.Lawful) {x id : NodeId}
    (hx : x ∈ root :: partials) (hid : d'.Reaches x id) :
    (d'.label? id).any Label.isGradient = false := by
  by_contra hg
  have hr := (hb.reaches_root_iff h).1 (hb.source_reached hx hid (Or.inr (by simpa using hg)))
  refine hg ?_
  rw [(hb.grows.extends_ h).label? (hr.lt_count h.wellFormed hb.root_lt)]
  exact hb.not_gradient id hr

theorem freeVars_root (hb : d.Bundled root g partials d') (h : d.Lawful) :
    d'.freeVars root = d.freeVars root :=
  freeVars_eq h (hb.lawful h) (hb.grows.extends_ h) hb.root_lt
    ((hb.grows.extends_ h).lt_count hb.root_lt) fun _ _ => hb.reaches_root_iff h

theorem freeVars_gradient (hb : d.Bundled root g partials d') (h : d.Lawful) :
    d'.freeVars g = d.freeVars root := by
  have hn := bundle?_eq_some_iff.1 hb.bundle?
  refine freeVars_eq h (hb.lawful h) (hb.grows.extends_ h) hb.root_lt hb.lt_count fun v hv => ?_
  rw [← hb.reaches_root_iff h, reaches_iff_of_node? hn]
  constructor
  · rintro (rfl | ⟨x, hx, hr⟩)
    · simp [name?, label?_of_node? hn, Label.name?] at hv
    · exact hb.source_reached hx hr (Or.inl hv)
  · exact fun hr => Or.inr ⟨root, List.mem_cons_self, hr⟩

end Dag.Bundled

namespace Dag

namespace Bundled

/-- The evaluation of a gradient fails as that of its root does, or it answers the values of its
parts. -/
theorem evaluate_parts (hb : d.Bundled root g partials d') (h : d.Lawful) (b : Bindings α) :
    (∃ fault, d'.evaluateGradient g b = .error fault ∧ d'.evaluate root b = .error fault) ∨
    ∃ values value, d'.evaluateGradient g b = .ok values ∧ d'.evaluate root b = .ok value ∧
      List.Forall₂ (fun x value => d'.evaluate x b = .ok value) (root :: partials) values := by
  have hd := hb.lawful h
  have hroot := (hb.grows.extends_ h).lt_count hb.root_lt
  have hvars : d'.freeVars g = d'.freeVars root :=
    (hb.freeVars_gradient h).trans (hb.freeVars_root h).symm
  cases hc : d'.checkBound b (d'.freeVars root) with
  | error fault =>
    refine Or.inl ⟨fault, ?_, ?_⟩
    · rw [evaluateGradient, evaluateAll_of_unbound hb.lt_count (hvars ▸ hc)]
      rfl
    · rw [evaluate, evaluateAll_of_unbound hroot hc]
      rfl
  | ok =>
    have hg := agrees_of_bound hd.wellFormed hb.lt_count (hvars ▸ hc)
    have hpart : ∀ x ∈ root :: partials, d'.evaluate x b =
        .ok (d'.denote (fun name => (b name).getD Scalar.zero) x) := fun x hx =>
      evaluate_eq hd (hb.part_lt h x hx) fun v name hv =>
        hg v name ((hb.reaches_part x hx).trans hv)
    refine Or.inr ⟨_, _, evaluateGradient_eq hd hb.lt_count hg hb.bundle?,
      hpart root List.mem_cons_self, ?_⟩
    exact List.forall₂_map_right_iff.2 (List.forall₂_same.2 hpart)

/-- The function of a gradient is called as that of its root. -/
theorem programs [ScalarText α] (hb : d.Bundled root g partials d') (h : d.Lawful)
    (options : CodeOptions) :
    ∃ p q, d'.program g options = .ok p ∧ d'.program root options = .ok q ∧
      p.params = q.params ∧ p.prologue = q.prologue ∧
      (options.convention = .scalar → p.returns = .aggregate ((d.freeVars root).length + 1)) := by
  have hd := hb.lawful h
  have hroot := (hb.grows.extends_ h).lt_count hb.root_lt
  have hnodes : d'.resultNodes g = root :: partials := by rw [resultNodes, hb.bundle?]
  have hplain : d'.bundle? root = none := by
    rw [Option.eq_none_iff_forall_ne_some]
    intro parts hp
    have hg := hb.part_not_gradient h (x := root) List.mem_cons_self .refl
    simp [label?_of_node? (bundle?_eq_some_iff.1 hp), Label.isGradient] at hg
  have hself : d'.resultNodes root = [root] := by rw [resultNodes, hplain]
  obtain ⟨ts, s, hp, hlen⟩ := Lowering.exists_program hd hb.lt_count (hnodes ▸ hb.reaches_part)
    (hnodes ▸ fun x hx id => hb.part_not_gradient h hx) options
  obtain ⟨us, s', hq, -⟩ := Lowering.exists_program hd hroot
    (hself ▸ List.forall_mem_singleton.2 .refl)
    (hself ▸ List.forall_mem_singleton.2 fun id => hb.part_not_gradient h List.mem_cons_self)
    options
  have hnames : d'.varNames g = d'.varNames root := by
    rw [varNames, varNames, hb.freeVars_gradient h, hb.freeVars_root h]
  refine ⟨_, _, hp, hq, ?_, ?_, fun hc => ?_⟩
  · simp only [Lowering.complete, hnames]
  · simp only [Lowering.complete, hnames]
  · simp [Lowering.complete, Lowering.epilogue, hc, hb.bundle?, hlen, hnodes, hb.length_eq]

end Bundled

/-- Applying an operator answers a node over the variables of its operands, with a gradient under it
only if there is one under them. A gradient has the variables of its root. There are functions for
both, with the same parameters, and that of numbers returns an aggregate. Whatever the variables
are bound to, the gradient is evaluated unless the evaluation of the root fails, and then for the
same reason; its values are those of the root and of the partial derivatives. -/
theorem Reachable.gradient_signature [ScalarText α] (h : d.Reachable) :
    (∀ app : Application, (∀ x ∈ app.operands, x < d.count) →
      ∃ id d', (Command.apply app).run d = (some (.node id), d') ∧
        (Command.tryApply app).run d = (some (.node id), d') ∧
        (∀ v, d'.Reaches id v → (d'.name? v).isSome → ∃ x ∈ app.operands, d.Reaches x v) ∧
        ((∀ x ∈ app.operands, d.GradientFree x) → d'.GradientFree id)) ∧
    ∀ root g d', (Command.backward root).run d = (some (.node g), d') →
      d'.freeVars g = d.freeVars root ∧ d'.freeVars root = d.freeVars root ∧
      (∀ options, ∃ p q, d'.program g options = .ok p ∧ d'.program root options = .ok q ∧
        p.params = q.params ∧ p.prologue = q.prologue ∧
        (options.convention = .scalar → p.returns = .aggregate ((d.freeVars root).length + 1))) ∧
      ∃ partials, d'.bundle? g = some ⟨root, partials, d.freeVars root⟩ ∧
        partials.length = (d.freeVars root).length ∧
        ∀ b, (∀ fault, d'.evaluateGradient g b = .error fault ↔
            d'.evaluate root b = .error fault) ∧
          ∀ values, d'.evaluateGradient g b = .ok values →
            List.Forall₂ (fun x value => d'.evaluate x b = .ok value) (root :: partials)
              values := by
  have hd := h.lawful
  refine ⟨fun app hx => ?_, fun root g d' hrun => ?_⟩
  · obtain ⟨happly, htry⟩ := Command.run_apply hx
    exact ⟨_, _, happly, htry,
      fun v hv hname => Application.sources_build hd hx hv (Or.inl hname),
      Application.gradientFree_build hd hx⟩
  · obtain ⟨partials, hb⟩ := backward_bundled hd (Command.backward_eq_ok hrun)
    refine ⟨hb.freeVars_gradient hd, hb.freeVars_root hd, hb.programs hd, partials, hb.bundle?,
      hb.length_eq, fun b => ?_⟩
    rcases hb.evaluate_parts hd b with ⟨fault, hg, hroot⟩ | ⟨values, value, hg, hroot, hall⟩
    · rw [hg, hroot]
      exact ⟨fun _ => by simp, fun _ hv => by cases hv⟩
    · rw [hg, hroot]
      refine ⟨fun _ => by simp, fun values' hv => ?_⟩
      exact Except.ok.inj hv ▸ hall

def product : Dag Double :=
  ((Command.build (.binary .mul (.var "x") (.var "y"))).run empty).2

theorem reachable_product : product.Reachable := by
  have ho : ((Command.build (.binary .mul (.var "x") (.var "y"))).run (empty : Dag Double)).1 =
      some (.node 2) := by cbv
  exact Reachable.empty.next ho

/-- The gradient of `x * y` is a function of `x` and `y` with three results. Nothing is computed
without a value for `y`; the sine of the product is over both variables. -/
theorem product_gradient_signature :
    (∃ id d', (Command.apply (.unary .sin 2)).run product = (some (.node id), d') ∧
      ∀ v, d'.Reaches id v → (d'.name? v).isSome → product.Reaches 2 v) ∧
    ∃ d' p, (Command.backward 2).run product = (some (.node 5), d') ∧ d'.freeVars 5 = [0, 1] ∧
      d'.program 5 {} = .ok p ∧ p.returns = .aggregate 3 ∧
      ∀ b : Bindings Double, d'.evaluate 2 b = .error (.unboundVariable "y") →
        d'.evaluateGradient 5 b = .error (.unboundVariable "y") := by
  obtain ⟨happly, hbackward⟩ := reachable_product.gradient_signature
  refine ⟨?_, ?_⟩
  · have hc : product.count = 3 := by cbv
    obtain ⟨id, d', hrun, -, hvars, -⟩ :=
      happly (.unary .sin 2) (by simp [Application.operands, hc])
    exact ⟨id, d', hrun, fun v hv hname => by
      simpa [Application.operands] using hvars v hv hname⟩
  · have hrun : (Command.backward 2).run product =
        (some (.node 5), ((Command.backward 2).run product).2) := Prod.ext (by cbv) rfl
    have hvars : product.freeVars 2 = [0, 1] := by cbv
    obtain ⟨hfree, -, hprogram, partials, -, -, heval⟩ := hbackward _ _ _ hrun
    obtain ⟨p, q, hp, -, -, -, hreturns⟩ := hprogram {}
    rw [hvars] at hfree hreturns
    exact ⟨_, p, hrun, hfree, hp, hreturns rfl, fun b => ((heval b).1 _).2⟩

end Dag

end SharedExpr
