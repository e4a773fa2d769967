import SharedExpr.Command
import SharedExpr.Proofs.Gradient.Growth

/-! The graphs that sequences of operations lead to. -/
namespace SharedExpr

variable {α : Type} [Scalar α] {d d' : Dag α}

/-- The graphs that operations lead to, from the empty graph on. -/
inductive Dag.Reachable : Dag α → Prop
  | empty : Reachable empty
  | run {d d' : Dag α} {command : Command α} {outcome : Outcome} (h : Reachable d)
    (hrun : command.run d = (some outcome, d')) : Reachable d'

theorem Dag.Reachable.next (h : d.Reachable) {command : Command α} {outcome : Outcome}
    (ho : (command.run d).1 = some outcome) : Dag.Reachable (command.run d).2 :=
  .run h (Prod.ext ho rfl)

theorem map_apply {β γ : Type} (f : β → γ) (x : OptionT (Build α) β) (d : Dag α) :
    (f <$> x) d = ((x d : Option β × Dag α).1.map f, (x d : Option β × Dag α).2) := by
  show (x >>= fun b => pure (f b)) d = _
  rw [bind_apply]
  rcases (x d : Option β × Dag α) with ⟨o, d₁⟩
  cases o <;> rfl

theorem Command.attempt_apply (steps : Attempt α NodeId) (d : Dag α) :
    attempt steps d = (some (.ofExcept (steps d : Except Fault NodeId × Dag α).1),
      (steps d : Except Fault NodeId × Dag α).2) :=
  rfl

theorem Application.grows_build? (h : d.Lawful) (app : Application) : d.Grows (app.build? d).2 := by
  rw [build?]
  split
  · next ha =>
    have hx : ∀ x ∈ app.operands, x < d.count := by simpa [Dag.contains] using ha
    exact (adds_build h hx).grows
  · exact .refl d

theorem Application.grows_tryBuild (h : d.Lawful) (app : Application) :
    d.Grows (app.tryBuild d).2 := by
  rw [tryBuild]
  cases hc : app.operands.forM d.check with
  | error fault => exact .refl d
  | ok =>
    have hx : ∀ x ∈ app.operands, x < d.count :=
      fun x hx => Dag.lt_of_check (Dag.forM_eq_ok_iff.1 hc x hx)
    exact (adds_build h hx).grows

theorem Expr.grows_build? (h : d.Lawful) (e : Expr α) : d.Grows (e.build? d).2 := by
  rw [build?]
  induction e generalizing d with
  | ref id => exact .refl d
  | lit value => exact (Dag.adds_lit h value).grows
  | var name => exact (Dag.adds_var h name).grows
  | unary op x ih =>
    have hx := ih h
    rw [buildWith_unary]
    rcases hr : (x.buildWith Application.build? d : Option NodeId × Dag α) with ⟨o, d₁⟩
    rw [hr] at hx
    cases o with
    | none => exact hx
    | some a => exact hx.trans (Application.grows_build? (hx.lawful h) _)
  | binary op x y ihx ihy =>
    have hx := ihx h
    rw [buildWith_binary]
    rcases hr : (x.buildWith Application.build? d : Option NodeId × Dag α) with ⟨o, d₁⟩
    rw [hr] at hx
    cases o with
    | none => exact hx
    | some a =>
      have h₁ := hx.lawful h
      have hy := ihy h₁
      dsimp only
      rcases hs : (y.buildWith Application.build? d₁ : Option NodeId × Dag α) with ⟨o, d₂⟩
      rw [hs] at hy
      cases o with
      | none => exact hx.trans hy
      | some b => exact (hx.trans hy).trans (Application.grows_build? (hy.lawful h₁) _)

theorem Application.build?_of_lt {app : Application} (hx : ∀ x ∈ app.operands, x < d.count) :
    app.build? d = (some (app.build d).1, (app.build d).2) := by
  have hall : app.operands.all d.contains := by simpa [Dag.contains] using hx
  rw [build?, if_pos hall]
  rfl

theorem Application.tryBuild_of_lt {app : Application} (hx : ∀ x ∈ app.operands, x < d.count) :
    app.tryBuild d = (.ok (app.build d).1, (app.build d).2) := by
  have hc : app.operands.forM d.check = .ok () :=
    Dag.forM_eq_ok_iff.2 fun x hm => Dag.check_of_lt (hx x hm)
  rw [tryBuild, hc]
  rfl

/-- Checked or not, operands that are nodes are applied in the same way. -/
theorem Command.run_apply {app : Application} (hx : ∀ x ∈ app.operands, x < d.count) :
    (apply app).run d = (some (.node (app.build d).1), (app.build d).2) ∧
      (tryApply app).run d = (some (.node (app.build d).1), (app.build d).2) := by
  rw [run, map_apply, Application.build?_of_lt hx, run, attempt_apply,
    Application.tryBuild_of_lt hx]
  exact ⟨rfl, rfl⟩

theorem Command.backward_eq_ok {root g : NodeId}
    (hb : (backward root).run d = (some (.node g), d')) :
    SharedExpr.backward root d = (.ok g, d') := by
  rw [run, attempt_apply] at hb
  rcases hr : (SharedExpr.backward root d : Except Fault NodeId × Dag α) with ⟨o, d₁⟩
  rw [hr] at hb
  cases o with
  | ok id =>
    cases hb
    rfl
  | error fault => cases hb

/-- Every operation but a reset only adds nodes that may be added. -/
theorem Command.run_grows (h : d.Lawful) {command : Command α} (hc : command ≠ .reset) :
    d.Grows (command.run d).2 := by
  cases command with
  | lit value => exact (Dag.adds_lit h value).grows
  | var name => exact (Dag.adds_var h name).grows
  | apply app =>
    rw [run, map_apply]
    exact app.grows_build? h
  | tryApply app => exact app.grows_tryBuild h
  | build e =>
    rw [run, map_apply]
    exact e.grows_build? h
  | gradient parts => exact (parts.build_adds h).grows
  | backward root => exact (backward_adds h root).grows
  | derivative consumer position =>
    rw [run]
    dsimp only
    split
    · exact (derivative_adds h consumer position).grows
    · exact .refl d
  | adjoints root start nodes =>
    rw [run]
    dsimp only
    cases hw : d.walk? start with
    | none => exact .refl d
    | some walk =>
      have ha := Adjoints.adjoints_adds h (Adjoints.within_start root walk d) nodes
      dsimp only
      rcases hr : Adjoints.adjoints nodes (.start root walk) d with ⟨o, t, d₁⟩
      rw [hr] at ha
      cases o <;> exact ha.grows
  | reset => exact absurd rfl hc

theorem Dag.Reachable.lawful (h : d.Reachable) : d.Lawful := by
  induction h with
  | empty => exact lawful_empty
  | @run d d' command outcome _ hrun ih =>
    by_cases hc : command = .reset
    · subst hc
      cases hrun
      exact lawful_empty
    · have hg := Command.run_grows ih hc
      rw [hrun] at hg
      exact hg.lawful ih

end SharedExpr
