import SharedExpr.Proofs.Expr.Rewrite

/-! What no rule applies to is in normal form, and may be added. -/
namespace SharedExpr

variable {α : Type} [Scalar α] {d : Dag α}

theorem Dag.negated?_eq_none_iff (h : d.Lawful) {x : NodeId} :
    d.negated? x = none ↔ d.label? x ≠ some (.unary .neg) := by
  constructor
  · intro hn hl
    obtain ⟨⟨label, operands⟩, hnode⟩ := Dag.exists_node? (Array.getElem?_eq_some_iff.1 hl).1
    obtain rfl : label = .unary .neg := Option.some.inj ((Dag.label?_of_node? hnode).symm.trans hl)
    cases h.admits hnode with
    | unary => simp [Dag.negated?, hnode] at hn
  · intro hl
    rw [Option.eq_none_iff_forall_ne_some]
    intro a ha
    obtain ⟨rest, hnode⟩ := Dag.negated?_eq_some ha
    exact hl (Dag.label?_of_node? hnode)

namespace BinaryRule

variable {x y : NodeId} {op : Binary}

theorem fold_eq_none (h : fold op d x y = none) :
    d.isLiteral x = false ∨ d.isLiteral y = false := by
  by_contra hc
  simp only [not_or, Bool.not_eq_false] at hc
  obtain ⟨a, ha⟩ := Option.isSome_iff_exists.1 hc.1
  obtain ⟨b, hb⟩ := Option.isSome_iff_exists.1 hc.2
  simp [fold, ha, hb] at h

theorem prefixed?_eq_none (h : prefixed? d op x = none) (a b : NodeId) : ¬ d.Prefixed op x a b := by
  rintro ⟨hn, ha⟩
  simp [prefixed?, hn, ha] at h

theorem regroup_eq_none (h : regroup op d x y = none) :
    prefixed? d op x = none ∧ prefixed? d op y = none := by
  rw [regroup] at h
  split at h
  · cases h
  · split at h <;> cases h
  · cases h
  · next hx hy => exact ⟨hx, hy⟩

end BinaryRule

namespace Application

theorem mem_operands_arrange (d : Dag α) (app : Application) (x : NodeId) :
    x ∈ (app.arrange d).operands ↔ x ∈ app.operands := by
  cases app with
  | unary op x => rfl
  | binary op a b =>
    rw [arrange]
    split
    · simp [operands, or_comm]
    · rfl

/-- An operator on literals is folded before all else. -/
theorem replacement?_of_literals {app : Application} (hl : ∀ x ∈ app.operands, d.isLiteral x) :
    ∃ value, app.replacement? d = some (.lit value) := by
  cases app with
  | unary op x =>
    obtain ⟨a, ha⟩ := Option.isSome_iff_exists.1 (hl x (by simp [operands]))
    refine ⟨Scalar.unary op a, ?_⟩
    cases op <;> simp [replacement?, UnaryRule.all, UnaryRule.fold, ha]
  | binary op x y =>
    obtain ⟨a, ha⟩ := Option.isSome_iff_exists.1 (hl x (by simp [operands]))
    obtain ⟨b, hb⟩ := Option.isSome_iff_exists.1 (hl y (by simp [operands]))
    refine ⟨Scalar.binary op a b, ?_⟩
    cases op <;> simp [replacement?, BinaryRule.all, BinaryRule.fold, ha, hb]

theorem swaps_arrange {op : Binary} (hop : op.commutes) {app : Application} {x y : NodeId}
    (h : app.arrange d = .binary op x y) : swaps d x y = false := by
  cases app with
  | unary op' a => cases h
  | binary op' a b =>
    rw [arrange] at h
    split at h
    · next hs =>
      obtain ⟨rfl, rfl, rfl⟩ := binary.inj h
      simp only [swaps, Bool.and_eq_true, Bool.or_eq_true, Bool.not_eq_true', decide_eq_true_eq]
        at hs ⊢
      rcases hs.2.2 with hl | hlt
      · simp [hl]
      · simp [hs.2.1, Nat.le_of_lt hlt]
    · next hs =>
      obtain ⟨rfl, rfl, rfl⟩ := binary.inj h
      simpa [hop] using hs

theorem ordered_of_regroup {op : Binary} {x y : NodeId} (hs : swaps d x y = false)
    (hfold : BinaryRule.fold op d x y = none) (hne : x ≠ y)
    (hr : BinaryRule.regroup op d x y = none) : d.Ordered op x y := by
  obtain ⟨hpx, hpy⟩ := BinaryRule.regroup_eq_none hr
  have hl := BinaryRule.fold_eq_none hfold
  simp only [swaps, Bool.and_eq_false_iff, Bool.not_eq_false', Bool.or_eq_false_iff,
    decide_eq_false_iff_not] at hs
  refine ⟨?_, hne, fun hx => ?_, BinaryRule.prefixed?_eq_none hpx,
    BinaryRule.prefixed?_eq_none hpy⟩
  · rcases hs with hx | ⟨hy, -⟩
    · simpa [hx] using hl
    · exact hy
  · rcases hs with hx' | ⟨-, hle⟩
    · rw [hx] at hx'
      cases hx'
    · exact Nat.lt_of_le_of_ne (Nat.not_lt.1 hle) hne

/-- What no rule applies to is normal. -/
theorem normal_of_replacement? (h : d.Lawful) {app : Application}
    (hr : (app.arrange d).replacement? d = none) : d.Normal (app.arrange d).node := by
  cases ha : app.arrange d with
  | unary op x =>
    rw [ha, replacement?, List.findSome?_eq_none_iff] at hr
    have hfold : UnaryRule.fold op d x = none := hr _ (by cases op <;> simp [UnaryRule.all])
    have hl : d.isLiteral x = false := by simpa [UnaryRule.fold, Dag.isLiteral] using hfold
    by_cases hop : op = .neg
    · subst hop
      have hn : UnaryRule.cancel d x = none := hr _ (by simp [UnaryRule.all])
      exact .neg hl ((Dag.negated?_eq_none_iff h).1 (by simpa [UnaryRule.cancel] using hn))
    · exact .transcendental hop hl
  | binary op x y =>
    rw [ha, replacement?, List.findSome?_eq_none_iff] at hr
    cases op with
    | add =>
      simp only [BinaryRule.all, List.forall_mem_cons] at hr
      obtain ⟨hfold, hzero, hdouble, hnx, hny, hregroup, -⟩ := hr
      refine .add (ordered_of_regroup (swaps_arrange rfl ha) hfold ?_ hregroup) ?_ ?_ ?_
      · simpa [BinaryRule.double] using hdouble
      · simpa [BinaryRule.zeroPlus] using hzero
      · exact (Dag.negated?_eq_none_iff h).1 (by simpa [BinaryRule.negPlus] using hnx)
      · exact (Dag.negated?_eq_none_iff h).1 (by simpa [BinaryRule.plusNeg] using hny)
    | sub =>
      simp only [BinaryRule.all, List.forall_mem_cons] at hr
      obtain ⟨-, hself, hzero, hliteral, hny, -⟩ := hr
      refine .sub ?_ ?_ ?_ ?_
      · simpa [BinaryRule.minusSelf] using hself
      · simpa [BinaryRule.zeroMinus] using hzero
      · simpa [BinaryRule.minusLiteral, Dag.isLiteral] using hliteral
      · exact (Dag.negated?_eq_none_iff h).1 (by simpa [BinaryRule.minusNeg] using hny)
    | mul =>
      simp only [BinaryRule.all, List.forall_mem_cons] at hr
      obtain ⟨hfold, hunit, hsquare, hregroup, -⟩ := hr
      have hvalues : d.hasValue x Scalar.zero = false ∧ d.hasValue x Scalar.one = false ∧
          d.hasValue x Scalar.minusOne = false := by
        rw [BinaryRule.unitTimes] at hunit
        split at hunit
        · cases hunit
        · split at hunit
          · cases hunit
          · simp_all
      refine .mul (ordered_of_regroup (swaps_arrange rfl ha) hfold ?_ hregroup) hvalues.1
        hvalues.2.1 hvalues.2.2
      simpa [BinaryRule.square] using hsquare
    | div =>
      simp only [BinaryRule.all, List.forall_mem_cons] at hr
      obtain ⟨hfold, hzero, hself, -⟩ := hr
      refine .div (BinaryRule.fold_eq_none hfold) ?_ ?_
      · simpa [BinaryRule.overSelf] using hself
      · simpa [BinaryRule.zeroOver] using hzero
    | pow =>
      simp only [BinaryRule.all, List.forall_mem_cons] at hr
      obtain ⟨hfold, hzero, hone, -⟩ := hr
      refine .pow (BinaryRule.fold_eq_none hfold) ?_ ?_
      · simpa [BinaryRule.powZero] using hzero
      · simpa [BinaryRule.powOne] using hone

theorem admits_of_replacement? (h : d.Lawful) {app : Application}
    (hx : ∀ x ∈ app.operands, x < d.count) (hr : (app.arrange d).replacement? d = none) :
    d.Admits (app.arrange d).node := by
  have hx' : ∀ x ∈ (app.arrange d).operands, x < d.count :=
    fun x hm => hx x ((mem_operands_arrange d app x).1 hm)
  have hl : ¬ ∀ x ∈ (app.arrange d).operands, d.isLiteral x := by
    intro hl
    obtain ⟨value, hv⟩ := replacement?_of_literals hl
    rw [hr] at hv
    cases hv
  have hn := normal_of_replacement? h hr
  generalize app.arrange d = arranged at *
  cases arranged with
  | unary op x =>
    exact .unary op (by simpa [operands] using hx') (by simpa [operands] using hl) hn
  | binary op x y =>
    have hxy : x < d.count ∧ y < d.count := by simpa [operands] using hx'
    refine .binary op hxy.1 hxy.2 ?_ hn
    by_cases hlx : d.isLiteral x
    · exact Or.inr (by simpa [operands, hlx] using hl)
    · exact Or.inl (by simpa using hlx)

end Application

end SharedExpr
