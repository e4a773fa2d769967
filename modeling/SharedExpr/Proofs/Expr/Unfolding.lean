import Mathlib
import SharedExpr.Proofs.Exact
import SharedExpr.Proofs.Session

/-! The calls of constructors within an application of an operator. The rules come to an end by
themselves, after a number of calls and at a depth that do not depend on the graph. -/
namespace SharedExpr

variable {α : Type} [Scalar α] {d d' : Dag α} {app : Application} {depth calls : Nat} {id : NodeId}

mutual

/-- The application of an operator under rules that may nest as deep as they like, with the depth
and the number of the calls of constructors it takes, itself included, and the node it answers. -/
inductive Application.Unfolds : Dag α → Application → Nat → Nat → NodeId → Dag α → Prop
  | node {d : Dag α} {app : Application} (hr : (app.arrange d).replacement? d = none) :
    Application.Unfolds d app 1 1 (d.intern (app.arrange d).node).1
      (d.intern (app.arrange d).node).2
  | rule {d d' : Dag α} {app : Application} {e : Expr α} {depth calls : Nat} {id : NodeId}
    (hr : (app.arrange d).replacement? d = some e) (he : Expr.Unfolds d e depth calls id d') :
    Application.Unfolds d app (depth + 1) (calls + 1) id d'

/-- The same for an expression: a literal and a variable are a call each, and the calls for the
operands of an operator are followed by those for its application. -/
inductive Expr.Unfolds : Dag α → Expr α → Nat → Nat → NodeId → Dag α → Prop
  | ref (d : Dag α) (id : NodeId) : Expr.Unfolds d (.ref id) 0 0 id d
  | lit (d : Dag α) (value : α) :
    Expr.Unfolds d (.lit value) 1 1 (Build.lit value d).1 (Build.lit value d).2
  | var (d : Dag α) (name : String) :
    Expr.Unfolds d (.var name) 1 1 (Build.var name d).1 (Build.var name d).2
  | unary {d d₁ d' : Dag α} {op : Unary} {x : Expr α} {depth depth₁ calls calls₁ : Nat}
    {a id : NodeId} (hx : Expr.Unfolds d x depth calls a d₁)
    (h : Application.Unfolds d₁ (.unary op a) depth₁ calls₁ id d') :
    Expr.Unfolds d (.unary op x) (max depth depth₁) (calls + calls₁) id d'
  | binary {d d₁ d₂ d' : Dag α} {op : Binary} {x y : Expr α}
    {depth depth₁ depth₂ calls calls₁ calls₂ : Nat} {a b id : NodeId}
    (hx : Expr.Unfolds d x depth calls a d₁) (hy : Expr.Unfolds d₁ y depth₁ calls₁ b d₂)
    (h : Application.Unfolds d₂ (.binary op a b) depth₂ calls₂ id d') :
    Expr.Unfolds d (.binary op x y) (max (max depth depth₁) depth₂) (calls + calls₁ + calls₂) id d'

end

theorem Application.Unfolds.eq (h : app.Unfolds d depth calls id d') :
    ∀ {depth' calls' : Nat} {id' : NodeId} {d'' : Dag α}, app.Unfolds d depth' calls' id' d'' →
      depth = depth' ∧ calls = calls' ∧ id = id' ∧ d' = d'' := by
  induction h using @Application.Unfolds.rec α _ _
    (fun d e depth calls id d' _ => ∀ {depth' calls' : Nat} {id' : NodeId} {d'' : Dag α},
      e.Unfolds d depth' calls' id' d'' →
        depth = depth' ∧ calls = calls' ∧ id = id' ∧ d' = d'') with
  | node hr =>
    intro _ _ _ _ h'
    cases h' with
    | node => exact ⟨rfl, rfl, rfl, rfl⟩
    | rule hr' => cases hr.symm.trans hr'
  | rule hr _ ih =>
    intro _ _ _ _ h'
    cases h' with
    | node hr' => cases hr.symm.trans hr'
    | rule hr' he' =>
      cases hr.symm.trans hr'
      obtain ⟨rfl, rfl, rfl, rfl⟩ := ih he'
      exact ⟨rfl, rfl, rfl, rfl⟩
  | ref d id h' | lit d value h' | var d name h' =>
    cases h'
    exact ⟨rfl, rfl, rfl, rfl⟩
  | unary _ _ ihx ih h' =>
    cases h' with
    | unary hx' h' =>
      obtain ⟨rfl, rfl, rfl, rfl⟩ := ihx hx'
      obtain ⟨rfl, rfl, rfl, rfl⟩ := ih h'
      exact ⟨rfl, rfl, rfl, rfl⟩
  | binary _ _ _ ihx ihy ih h' =>
    cases h' with
    | binary hx' hy' h' =>
      obtain ⟨rfl, rfl, rfl, rfl⟩ := ihx hx'
      obtain ⟨rfl, rfl, rfl, rfl⟩ := ihy hy'
      obtain ⟨rfl, rfl, rfl, rfl⟩ := ih h'
      exact ⟨rfl, rfl, rfl, rfl⟩

def Expr.size : Expr α → Nat
  | ref _ => 0
  | lit _ | var _ => 1
  | unary _ x => x.size + 1
  | binary _ x y => x.size + y.size + 1

/-- A rule makes at most three calls. -/
theorem Rewrite.size_le {e : Expr α} (h : Rewrite d app e) : e.size ≤ 3 := by
  cases h with
  | regroup _ h => cases h <;> simp [Expr.size]
  | _ => simp [Expr.size]

/-- A number of calls that suffices for an application with rules nested up to a depth in it. -/
def callLimit : Nat → Nat
  | 0 => 1
  | depth + 1 => 3 * callLimit depth + 1

theorem one_le_callLimit (depth : Nat) : 1 ≤ callLimit depth := by
  cases depth with
  | zero => exact Nat.le_refl 1
  | succ depth => exact Nat.le_add_left 1 _

/-- What is built under rules of a limited depth unfolds without a limit, if the applications of
operators do. -/
theorem Expr.exists_unfolds {limit : Nat}
    (happ : ∀ {d d' : Dag α} {app : Application} {id : NodeId},
      app.buildAt? limit d = (some id, d') → ∃ depth calls, app.Unfolds d depth calls id d' ∧
        depth ≤ limit + 1 ∧ calls ≤ callLimit limit)
    (e : Expr α) (h : e.buildWith (Application.buildAt? limit) d = (some id, d')) :
    ∃ depth calls, e.Unfolds d depth calls id d' ∧ depth ≤ limit + 1 ∧
      calls ≤ e.size * callLimit limit := by
  have hone := one_le_callLimit limit
  induction e generalizing d d' id with
  | ref x =>
    cases h
    exact ⟨0, 0, .ref d x, Nat.zero_le _, Nat.zero_le _⟩
  | lit value =>
    cases h
    exact ⟨1, 1, .lit d value, by omega, by simpa [size] using hone⟩
  | var name =>
    cases h
    exact ⟨1, 1, .var d name, by omega, by simpa [size] using hone⟩
  | unary op x ih =>
    obtain ⟨a, d₁, hx, ha⟩ := buildWith_unary_eq_some h
    obtain ⟨depth, calls, hx, hdepth, hcalls⟩ := ih hx
    obtain ⟨depth₁, calls₁, ha, hdepth₁, hcalls₁⟩ := happ ha
    refine ⟨_, _, .unary hx ha, Nat.max_le.2 ⟨hdepth, hdepth₁⟩, ?_⟩
    rw [size, Nat.succ_mul]
    exact Nat.add_le_add hcalls hcalls₁
  | binary op x y ihx ihy =>
    obtain ⟨a, b, d₁, d₂, hx, hy, hab⟩ := buildWith_binary_eq_some h
    obtain ⟨depth, calls, hx, hdepth, hcalls⟩ := ihx hx
    obtain ⟨depth₁, calls₁, hy, hdepth₁, hcalls₁⟩ := ihy hy
    obtain ⟨depth₂, calls₂, hab, hdepth₂, hcalls₂⟩ := happ hab
    refine ⟨_, _, .binary hx hy hab,
      Nat.max_le.2 ⟨Nat.max_le.2 ⟨hdepth, hdepth₁⟩, hdepth₂⟩, ?_⟩
    rw [size, Nat.succ_mul, Nat.add_mul]
    exact Nat.add_le_add (Nat.add_le_add hcalls hcalls₁) hcalls₂

namespace Application

/-- What an application answers under rules of a limited depth it also answers without a limit. -/
theorem exists_unfolds {limit : Nat} (h : app.buildAt? limit d = (some id, d')) :
    ∃ depth calls, app.Unfolds d depth calls id d' ∧ depth ≤ limit + 1 ∧
      calls ≤ callLimit limit := by
  induction limit generalizing d d' app id with
  | zero => cases h
  | succ limit ih =>
    rw [buildAt?_succ] at h
    cases hr : (app.arrange d).replacement? d with
    | none =>
      rw [hr] at h
      cases h
      exact ⟨1, 1, .node hr, by omega, one_le_callLimit _⟩
    | some e =>
      rw [hr] at h
      obtain ⟨depth, calls, he, hdepth, hcalls⟩ := Expr.exists_unfolds ih e h
      have hsize := Nat.mul_le_mul_right (callLimit limit) (rewrite_of_replacement? hr).size_le
      exact ⟨_, _, .rule hr he, Nat.succ_le_succ hdepth,
        Nat.succ_le_succ (Nat.le_trans hcalls hsize)⟩

/-- Whatever the limit on their depth, the rules lead to the same answer if they lead to one. -/
theorem buildAt?_eq_of_le (h : d.Lawful) (hx : ∀ x ∈ app.operands, x < d.count) {limit : Nat}
    (hlimit : nestingLimit ≤ limit) :
    app.buildAt? limit d = (some (app.build d).1, (app.build d).2) := by
  obtain ⟨-, id, hid, -⟩ := answers h hx limit hlimit
  rcases hr : (app.buildAt? limit d : Option NodeId × Dag α) with ⟨o, d₁⟩
  rw [hr] at hid
  cases hid
  obtain ⟨depth, calls, hu, -⟩ := exists_unfolds (buildAt?_eq_build h hx)
  obtain ⟨depth', calls', hu', -⟩ := exists_unfolds hr
  obtain ⟨-, -, rfl, rfl⟩ := hu.eq hu'
  rfl

theorem build_of_replacement?_none (h : d.Lawful) (hx : ∀ x ∈ app.operands, x < d.count)
    (hr : (app.arrange d).replacement? d = none) : app.build d = d.intern (app.arrange d).node := by
  have hb := buildAt?_eq_build h hx
  rw [nestingLimit, buildAt?_succ, hr] at hb
  obtain ⟨hid, hd⟩ := Prod.mk.inj hb
  exact Prod.ext (Option.some.inj hid).symm hd.symm

theorem build_of_replacement? (h : d.Lawful) (hx : ∀ x ∈ app.operands, x < d.count) {e : Expr α}
    (hr : (app.arrange d).replacement? d = some e) : app.build d = e.build d := by
  have he : ∀ id ∈ e.refs, id < d.count := (rewrite_of_replacement? hr).refs_lt h.wellFormed
    fun x hm => hx x ((mem_operands_arrange d app x).1 hm)
  have hb := buildAt?_eq_of_le h hx (Nat.le_succ nestingLimit)
  rw [buildAt?_succ, hr] at hb
  have hcongr := Expr.buildWith_congr (fun _ _ h hx => adds_lift_build h hx)
    (fun _ _ h hx => buildAt?_eq_build h hx) e h he
  obtain ⟨hid, hd⟩ := Prod.mk.inj (hb.symm.trans (hcongr.trans (Expr.buildWith_lift _ e d)))
  exact Prod.ext (Option.some.inj hid) hd

end Application

namespace Dag

/-- The rules come to an end in every graph that operations lead to, and do bounded work. An
application of an operator to nodes unfolds, in one way only, with calls nested at most nine deep
and at most 9841 of them, and adds at most five nodes. It is what the application does as an
operation, checked or not, and what any limit on the nesting of the rules from eight on makes of
it. -/
theorem Reachable.application_unfolds (h : d.Reachable) {app : Application}
    (hx : ∀ x ∈ app.operands, x < d.count) :
    ∃ depth calls id d', app.Unfolds d depth calls id d' ∧ depth ≤ 9 ∧ calls ≤ 9841 ∧
      d.count ≤ d'.count ∧ d'.count ≤ d.count + 5 ∧
      (∀ depth' calls' id' d'', app.Unfolds d depth' calls' id' d'' →
        depth' = depth ∧ calls' = calls ∧ id' = id ∧ d'' = d') ∧
      (Command.apply app).run d = (some (.node id), d') ∧
      (Command.tryApply app).run d = (some (.node id), d') ∧
      ∀ limit, 8 ≤ limit → app.buildAt? limit d = (some id, d') := by
  have hd := h.lawful
  obtain ⟨depth, calls, hu, hdepth, hcalls⟩ :=
    Application.exists_unfolds (Application.buildAt?_eq_build hd hx)
  obtain ⟨hrun, htry⟩ := Command.run_apply hx
  refine ⟨depth, calls, _, _, hu, hdepth, hcalls, ?_, Application.count_build_le hd hx,
    fun depth' calls' id' d'' hu' => hu'.eq hu, hrun, htry,
    fun limit hlimit => Application.buildAt?_eq_of_le hd hx hlimit⟩
  exact ((Application.adds_build hd hx).grows.extends_ hd).count_le

/-- The sum `3 + 5 * u`, and the negation of `4 + 5 * u`. -/
def twoSums : Dag ℚ :=
  ((Command.build (.unary .neg
      (.binary .add (.lit 4) (.binary .mul (.lit 5) (.var "u"))))).run
    ((Command.build (.binary .add (.lit 3) (.binary .mul (.lit 5) (.var "u")))).run empty).2).2

theorem reachable_twoSums : twoSums.Reachable := by
  have hfirst : ((Command.build (.binary .add (.lit 3) (.binary .mul (.lit 5) (.var "u")))).run
      (empty : Dag ℚ)).1 = some (.node 4) := by cbv
  have hsecond : ((Command.build (.unary .neg
      (.binary .add (.lit 4) (.binary .mul (.lit 5) (.var "u"))))).run
    ((Command.build (.binary .add (.lit 3) (.binary .mul (.lit 5) (.var "u")))).run
      (empty : Dag ℚ)).2).1 = some (.node 7) := by cbv
  exact (Reachable.empty.next hfirst).next hsecond

/-- The difference `(3 + 5 * u) - -(4 + 5 * u)` becomes `7 + 10 * u` by way of `2 * (5 * u)`, which
adds five nodes: the literals seven, two and ten, the product and the sum. -/
theorem twoSums_application_unfolds :
    ∃ depth calls d', (Application.binary .sub 4 7).Unfolds twoSums depth calls 12 d' ∧
      depth ≤ 9 ∧ calls ≤ 9841 ∧ twoSums.count = 8 ∧ d'.count = 13 := by
  have hcount : twoSums.count = 8 := by cbv
  have hid : ((Command.apply (.binary .sub 4 7)).run twoSums).1 = some (.node 12) := by cbv
  have hadded : ((Command.apply (.binary .sub 4 7)).run twoSums).2.count = 13 := by cbv
  have hoperands : ∀ x ∈ (Application.binary .sub 4 7).operands, x < twoSums.count := by
    rw [hcount]
    simp [Application.operands]
  obtain ⟨depth, calls, id, d', hu, hdepth, hcalls, -, -, -, hrun, -⟩ :=
    reachable_twoSums.application_unfolds hoperands
  rw [hrun] at hid hadded
  cases hid
  exact ⟨depth, calls, d', hu, hdepth, hcalls, hcount, hadded⟩

end Dag

end SharedExpr
