import Mathlib
import SharedExpr.Print.Infix
import SharedExpr.Proofs.Code.Words
import SharedExpr.Proofs.Double.Shortest
import SharedExpr.Proofs.Session

/-! The printed expression identifies its node: the text has one reading as a tree, and equal trees
are one node. -/
namespace SharedExpr

/-- The characters that make up words in the text of an expression: what neither separates nor
encloses. -/
def isInfixWord (c : Char) : Bool :=
  c != ' ' && c != '(' && c != ')'

theorem isInfixWord_eq_false_iff {c : Char} :
    isInfixWord c = false ↔ c = ' ' ∨ c = '(' ∨ c = ')' := by
  simp [isInfixWord, or_iff_not_imp_left]

/-- What may stand behind an expression in a text: nothing, or a character that is in no word. -/
def EndsWord (rest : List Char) : Prop :=
  ∀ c, rest.head? = some c → isInfixWord c = false

theorem EndsWord.nil : EndsWord [] := by
  simp [EndsWord]

theorem EndsWord.cons {c : Char} (hc : isInfixWord c = false) (rest : List Char) :
    EndsWord (c :: rest) := by
  simpa [EndsWord] using hc

theorem EndsWord.takeWhile_append {w rest : List Char} (hrest : EndsWord rest)
    (hw : ∀ c ∈ w, isInfixWord c = true) : (w ++ rest).takeWhile isInfixWord = w := by
  rw [List.takeWhile_append_of_pos hw]
  cases rest with
  | nil => simp
  | cons c cs => rw [List.takeWhile_cons_of_neg (by simp [hrest c rfl]), List.append_nil]

namespace Double

theorem exists_render_plain {x : Double} (hx : x.isFinite) :
    ∃ c cs, (x.render .plain).toList = (if x.negative then ['-'] else []) ++ c :: cs ∧
      c.isDigit := by
  obtain ⟨c, cs, hcs, hc⟩ := x.shortest.exists_positional false
  exact ⟨c, cs, by rw [toList_render_plain hx, hcs], hc⟩

theorem render_plain_of_isInfinite {x : Double} (hx : x.isInfinite) :
    x.render .plain = if x.negative then "-inf" else "inf" := by
  have hnan : x.isNaN = false := by
    rw [isInfinite, beq_iff_eq] at hx
    rw [isNaN, hx]
    rfl
  rw [render, hnan, hx]
  cases x.negative <;> rfl

theorem isFinite_or_isInfinite {x : Double} (hx : x.isNaN = false) :
    x.isFinite = true ∨ x.isInfinite = true := by
  cases hinfinite : x.isInfinite with
  | true => exact .inr rfl
  | false => exact .inl (x.isFinite_iff.2 ⟨hx, hinfinite⟩)

/-- Two numbers have one text only if they are one number, bit by bit. -/
theorem render_plain_injective {x y : Double} (hx : x.isNaN = false) (hy : y.isNaN = false)
    (h : x.render .plain = y.render .plain) : x = y := by
  have hunread : ∀ {z : Double}, z.isInfinite = true → read? (z.render .plain) = none := by
    intro z hz
    rw [render_plain_of_isInfinite hz]
    cases z.negative <;> rfl
  rcases isFinite_or_isInfinite hx with hx | hx <;> rcases isFinite_or_isInfinite hy with hy | hy
  · have hread := read?_render_plain hx
    rw [h, read?_render_plain hy] at hread
    exact (Option.some.inj hread).symm
  · have hread := read?_render_plain hx
    rw [h, hunread hy] at hread
    cases hread
  · have hread := read?_render_plain hy
    rw [← h, hunread hx] at hread
    cases hread
  · have hsign : x.negative = y.negative := by
      rw [render_plain_of_isInfinite hx, render_plain_of_isInfinite hy] at h
      cases hnx : x.negative <;> cases hny : y.negative <;> simp_all
    rw [isInfinite, beq_iff_eq] at hx hy
    rw [x.eq_signed, y.eq_signed, hsign, hx, hy]

end Double

/-- A letter or an underscore, and letters, digits and underscores behind it; characters beyond the
ASCII range may stand among these. The name of infinity is excepted, as numbers are written so. -/
structure IsIdentifier (name : String) : Prop where
  head : ∃ c cs, name.toList = c :: cs ∧ (c.isAlpha ∨ c = '_')
  chars : ∀ c ∈ name.toList, c.isAlphanum ∨ c = '_' ∨ 127 < c.toNat
  ne_inf : name ≠ "inf"

namespace Label

/-- What can be told from its text: no gradient, no literal that is not a number, and no variable
with a name that is no identifier. -/
def Legible : Label Double → Prop
  | .lit value => value.isNaN = false
  | .var name => IsIdentifier name
  | .unary _ | .binary _ => True
  | .gradient _ => False

/-- The labels of the nodes without operands, with their texts. -/
inductive Spells : Label Double → List Char → Prop
  | lit {value : Double} (h : value.isNaN = false) :
    Spells (.lit value) (value.render .plain).toList
  | var {name : String} (h : IsIdentifier name) : Spells (.var name) name.toList

namespace Spells

variable {label label' : Label Double} {w : List Char}

theorem plain (h : label.Spells w) : ∀ c ∈ w, isInfixWord c = true := by
  intro c hc
  rw [← Bool.not_eq_false, isInfixWord_eq_false_iff]
  cases h with
  | lit =>
    have hc := Double.isConstantChar_render .plain _ c hc
    rintro (rfl | rfl | rfl) <;> exact absurd hc (by decide)
  | var h =>
    have hc := h.chars c hc
    rintro (rfl | rfl | rfl) <;> exact absurd hc (by decide)

theorem ne_nil (h : label.Spells w) : w ≠ [] := by
  cases h with
  | @lit value h =>
    rcases Double.isFinite_or_isInfinite h with h | h
    · obtain ⟨c, cs, hcs, -⟩ := Double.exists_render_plain h
      simp [hcs]
    · rw [Double.render_plain_of_isInfinite h]
      cases value.negative <;> decide
  | var h =>
    obtain ⟨c, cs, hcs, -⟩ := h.head
    simp [hcs]

theorem ne_minus (h : label.Spells w) : w ≠ ['-'] := by
  cases h with
  | @lit value h =>
    rcases Double.isFinite_or_isInfinite h with h | h
    · obtain ⟨c, cs, hcs, hc⟩ := Double.exists_render_plain h
      rw [hcs]
      cases value.negative with
      | true => simp
      | false =>
        rintro ⟨rfl, -⟩
        exact absurd hc (by decide)
    · rw [Double.render_plain_of_isInfinite h]
      cases value.negative <;> decide
  | var h =>
    obtain ⟨c, cs, hcs, hc⟩ := h.head
    rw [hcs]
    rintro ⟨rfl, -⟩
    exact absurd hc (by decide)

theorem append_ne_paren (h : label.Spells w) {rest : List Char} (hrest : EndsWord rest)
    (inside : List Char) : w ++ rest ≠ '(' :: inside := by
  intro heq
  have hlead := congrArg (List.takeWhile isInfixWord) heq
  rw [hrest.takeWhile_append h.plain] at hlead
  exact h.ne_nil hlead

theorem append_ne_minus (h : label.Spells w) {rest : List Char} (hrest : EndsWord rest)
    (inside : List Char) : w ++ rest ≠ '-' :: '(' :: inside := by
  intro heq
  have hlead := congrArg (List.takeWhile isInfixWord) heq
  rw [hrest.takeWhile_append h.plain] at hlead
  exact h.ne_minus hlead

theorem render_ne {value : Double} (hv : value.isNaN = false) {name : String}
    (hn : IsIdentifier name) : value.render .plain ≠ name := by
  intro he
  obtain ⟨e, es, hes, he'⟩ := hn.head
  rw [← he] at hes
  rcases Double.isFinite_or_isInfinite hv with hv | hv
  · obtain ⟨c, cs, hcs, hc⟩ := Double.exists_render_plain hv
    rw [hes] at hcs
    split at hcs
    · obtain ⟨rfl, -⟩ := List.cons.inj hcs
      exact absurd he' (by decide)
    · obtain ⟨rfl, -⟩ := List.cons.inj hcs
      rcases he' with he' | rfl
      · simp only [Char.isDigit, Char.isAlpha, Char.isUpper, Char.isLower, Bool.and_eq_true,
          Bool.or_eq_true, decide_eq_true_iff, UInt32.le_iff_toNat_le, ge_iff_le] at hc he'
        have hA : 'A'.val.toNat = 65 := rfl
        have ha : 'a'.val.toNat = 97 := rfl
        have h9 : '9'.val.toNat = 57 := rfl
        omega
      · exact absurd hc (by decide)
  · have htext := Double.render_plain_of_isInfinite hv
    split at htext
    · rw [htext] at hes
      obtain ⟨rfl, -⟩ := List.cons.inj (hes : ['-', 'i', 'n', 'f'] = _)
      exact absurd he' (by decide)
    · exact hn.ne_inf (he.symm.trans htext)

theorem injective (h : label.Spells w) (h' : label'.Spells w) : label = label' := by
  generalize hw : w = w' at h'
  cases h with
  | lit h =>
    cases h' with
    | lit h' => rw [Double.render_plain_injective h h' (String.toList_inj.1 hw)]
    | var h' => exact absurd (String.toList_inj.1 hw) (render_ne h h')
  | var h =>
    cases h' with
    | lit h' => exact absurd (String.toList_inj.1 hw).symm (render_ne h' h)
    | var h' => rw [String.toList_inj.1 hw]

end Spells

end Label

namespace Unary

theorem plain_name (op : Unary) : ∀ c ∈ op.name.toList, isInfixWord c = true := by
  cases op <;> exact List.all_eq_true.1 rfl

theorem name_ne (op : Unary) : op.name.toList ≠ [] ∧ op.name.toList ≠ ['-'] := by
  cases op <;> decide

end Unary

theorem Binary.length_symbol (op : Binary) : op.symbol.toList.length = 1 := by
  cases op <;> rfl

namespace Dag

variable {d : Dag Double}

def Legible (d : Dag Double) (root : NodeId) : Prop :=
  ∀ id label, d.Reaches root id → d.label? id = some label → label.Legible

/-- The text of a node as it is made up: a word, or an operator with operands in parentheses. -/
inductive Phrase (d : Dag Double) : NodeId → List Char → Prop
  | word {id : NodeId} {label : Label Double} {w : List Char}
    (hn : d.node? id = some ⟨label, []⟩) (hw : label.Spells w) : Phrase d id w
  | opposite {id x : NodeId} {t : List Char} (hn : d.node? id = some ⟨.unary .neg, [x]⟩)
    (hx : Phrase d x t) : Phrase d id ('-' :: '(' :: (t ++ [')']))
  | call {id x : NodeId} {op : Unary} {t : List Char}
    (hn : d.node? id = some ⟨.unary op, [x]⟩) (hop : op ≠ .neg) (hx : Phrase d x t) :
    Phrase d id ('(' :: (op.name.toList ++ '(' :: (t ++ [')', ')'])))
  | infixed {id x y : NodeId} {op : Binary} {t u : List Char}
    (hn : d.node? id = some ⟨.binary op, [x, y]⟩) (hx : Phrase d x t) (hy : Phrase d y u) :
    Phrase d id ('(' :: (t ++ ' ' :: (op.symbol.toList ++ ' ' :: (u ++ [')']))))

namespace Phrase

variable {a b : NodeId} {t t' r r' : List Char}

theorem ends_paren (rest : List Char) : EndsWord (')' :: rest) :=
  .cons rfl rest

/-- The first word of an operand is no name of a function that is called. -/
theorem append_ne_call (h : d.Phrase a t) (op : Unary) :
    t ++ ' ' :: r ≠ op.name.toList ++ '(' :: r' := by
  intro heq
  have hname : (op.name.toList ++ '(' :: r').takeWhile isInfixWord = op.name.toList :=
    (EndsWord.cons rfl r').takeWhile_append op.plain_name
  rw [← heq] at hname
  cases h with
  | word hn hw =>
    rw [(EndsWord.cons rfl r).takeWhile_append hw.plain] at hname
    rw [hname] at heq
    exact absurd (List.head_eq_of_cons_eq (List.append_cancel_left heq)) (by decide)
  | opposite hn hx => exact op.name_ne.2 hname.symm
  | call hn hop hx => exact op.name_ne.1 hname.symm
  | infixed hn hx hy => exact op.name_ne.1 hname.symm

/-- A text has one reading, if what stands behind it is no part of a word: it is the text of one
node only, and it ends at one place only. -/
theorem unique (hd : d.WellFormed) (h : d.Phrase a t) (h' : d.Phrase b t') (hr : EndsWord r)
    (hr' : EndsWord r') (heq : t ++ r = t' ++ r') : a = b ∧ r = r' := by
  have hnode : ∀ {a b node}, d.node? a = some node → d.node? b = some node → a = b :=
    fun ha hb => Option.some.inj (((hd.index_iff _ _).2 ha).symm.trans ((hd.index_iff _ _).2 hb))
  -- The first words of both texts, up to a blank or a parenthesis, tell the forms apart, except
  -- for a function that is called and the first operand of a sign.
  induction h generalizing b t' r r' with
  | word hn hw =>
    cases h' with
    | word hn' hw' =>
      have hlead := congrArg (List.takeWhile isInfixWord) heq
      rw [hr.takeWhile_append hw.plain, hr'.takeWhile_append hw'.plain] at hlead
      subst hlead
      obtain rfl := hw.injective hw'
      exact ⟨hnode hn hn', List.append_cancel_left heq⟩
    | opposite => exact absurd heq (hw.append_ne_minus hr _)
    | call => exact absurd heq (hw.append_ne_paren hr _)
    | infixed => exact absurd heq (hw.append_ne_paren hr _)
  | opposite hn hx ih =>
    cases h' with
    | word hn' hw' => exact absurd heq.symm (hw'.append_ne_minus hr' _)
    | opposite hn' hx' =>
      simp only [List.cons_append, List.append_assoc, List.nil_append, List.cons.injEq,
        true_and] at heq
      obtain ⟨rfl, hrest⟩ := ih hx' (ends_paren r) (ends_paren r') heq
      exact ⟨hnode hn hn', List.tail_eq_of_cons_eq hrest⟩
    | call => cases heq
    | infixed => cases heq
  | @call _ _ op _ hn _ hx ih =>
    cases h' with
    | word hn' hw' => exact absurd heq.symm (hw'.append_ne_paren hr' _)
    | opposite => cases heq
    | @call _ _ op' _ hn' _ hx' =>
      simp only [List.cons_append, List.append_assoc, List.nil_append, List.cons.injEq,
        true_and] at heq
      have hname := congrArg (List.takeWhile isInfixWord) heq
      rw [(EndsWord.cons rfl _).takeWhile_append op.plain_name,
        (EndsWord.cons rfl _).takeWhile_append op'.plain_name] at hname
      obtain rfl := Unary.name_injective (String.toList_inj.1 hname)
      obtain ⟨rfl, hrest⟩ := ih hx' (ends_paren _) (ends_paren _)
        (List.tail_eq_of_cons_eq (List.append_cancel_left heq))
      exact ⟨hnode hn hn', List.tail_eq_of_cons_eq (List.tail_eq_of_cons_eq hrest)⟩
    | infixed hn' hx' hy' =>
      simp only [List.cons_append, List.append_assoc, List.cons.injEq, true_and] at heq
      exact absurd heq.symm (hx'.append_ne_call op)
  | @infixed _ _ _ op _ _ hn hx hy ihx ihy =>
    cases h' with
    | word hn' hw' => exact absurd heq.symm (hw'.append_ne_paren hr' _)
    | opposite => cases heq
    | @call _ _ op' _ hn' _ hx' =>
      simp only [List.cons_append, List.append_assoc, List.cons.injEq, true_and] at heq
      exact absurd heq (hx.append_ne_call op')
    | @infixed _ _ _ op' _ _ hn' hx' hy' =>
      simp only [List.cons_append, List.append_assoc, List.nil_append, List.cons.injEq,
        true_and] at heq
      obtain ⟨rfl, hsigned⟩ := ihx hx' (.cons rfl _) (.cons rfl _) heq
      obtain ⟨hsymbol, hright⟩ := List.append_inj (List.tail_eq_of_cons_eq hsigned)
        (op.length_symbol.trans op'.length_symbol.symm)
      obtain rfl := Binary.symbol_injective (String.toList_inj.1 hsymbol)
      obtain ⟨rfl, hrest⟩ := ihy hy' (ends_paren r) (ends_paren r')
        (List.tail_eq_of_cons_eq hright)
      exact ⟨hnode hn hn', List.tail_eq_of_cons_eq hrest⟩

end Phrase

theorem operand_lt_of_node? (hd : d.WellFormed) {id : NodeId} {node : Node Double}
    (hn : d.node? id = some node) : ∀ x ∈ node.operands, x < id := by
  rw [← operands_of_node? hn]
  exact hd.operands_lt id

theorem display_eq (hd : d.WellFormed) {id : NodeId} {node : Node Double}
    (hn : d.node? id = some node) :
    d.display id = node.label.infixText (node.operands.map d.display) :=
  d.unfold_eq _ _ hn (operand_lt_of_node? hd hn)

theorem Legible.operand {root x : NodeId} (h : d.Legible root) (hx : x ∈ d.operands root) :
    d.Legible x :=
  fun id label hr hl => h id label (.head hx hr) hl

theorem Lawful.phrase_display (hd : d.Lawful) {id : NodeId} (hid : id < d.count)
    (hl : d.Legible id) : d.Phrase id (d.display id).toList := by
  induction id using Nat.strongRecOn with
  | _ id ih =>
    obtain ⟨node, hn⟩ := exists_node? hid
    have hlabel := hl id node.label .refl (label?_of_node? hn)
    have hoperand : ∀ x ∈ node.operands, d.Phrase x (d.display x).toList := fun x hx =>
      ih x (operand_lt_of_node? hd.wellFormed hn x hx) ((hd.admits hn).operand_lt x hx)
        (hl.operand (operands_of_node? hn ▸ hx))
    rw [display_eq hd.wellFormed hn]
    cases hd.admits hn with
    | lit _ => exact .word hn (.lit hlabel)
    | var name => exact .word hn (.var hlabel)
    | @unary op x _ _ _ =>
      have hx := hoperand x (by simp)
      by_cases hop : op = .neg
      · subst hop
        simpa [Label.infixText, toString] using Phrase.opposite hn hx
      · have htext : (Label.unary op : Label Double).infixText [d.display x] =
            s!"({op.name}({d.display x}))" := by
          cases op with
          | neg => exact absurd rfl hop
          | exp | log | sin | cos => rfl
        simpa [htext, toString] using Phrase.call hn hop hx
    | @binary op x y _ _ _ _ =>
      have hx := hoperand x (by simp)
      have hy := hoperand y (by simp)
      simpa [Label.infixText, toString] using Phrase.infixed hn hx hy
    | gradient _ _ _ _ => exact hlabel.elim

/-- The printed expression identifies the node. Two nodes, each with an expression under it that
has neither gradients nor literals that are not numbers and has identifiers for its variables, are
printed alike only if they are one node. -/
theorem Reachable.display_eq_iff (h : d.Reachable) {a b : NodeId} (ha : a < d.count)
    (hb : b < d.count) (hla : d.Legible a) (hlb : d.Legible b) :
    d.display a = d.display b ↔ a = b := by
  refine ⟨fun heq => ?_, congrArg d.display⟩
  have hpa := h.lawful.phrase_display ha hla
  have hpb := h.lawful.phrase_display hb hlb
  rw [heq] at hpa
  exact (hpa.unique h.lawful.wellFormed hpb .nil .nil rfl).1

/-- A negative number times the sine of a variable that is named as the function. -/
def sineOfSin : Dag Double :=
  ((Command.build (.binary .mul (.lit ⟨0xBFE0000000000000⟩) (.unary .sin (.var "sin")))).run
    empty).2

/-- The number, the variable, its sine and the product have four texts. -/
theorem sineOfSin_display_eq_iff :
    sineOfSin.count = 4 ∧
    ∀ a < 4, ∀ b < 4, sineOfSin.display a = sineOfSin.display b ↔ a = b := by
  have hproduct : ((Command.build (.binary .mul (.lit ⟨0xBFE0000000000000⟩)
      (.unary .sin (.var "sin")))).run (empty : Dag Double)).1 = some (.node 3) := by cbv
  have hlabels : sineOfSin.labels.toList = [.lit ⟨0xBFE0000000000000⟩, .var "sin", .unary .sin,
      .binary .mul] := by cbv
  have hcount : sineOfSin.count = 4 := by cbv
  have hlegible : ∀ root, sineOfSin.Legible root := by
    intro root id label _ hl
    have hm : label ∈ sineOfSin.labels.toList := Array.mem_toList_iff.2 (Array.mem_of_getElem? hl)
    rw [hlabels] at hm
    simp only [List.mem_cons, List.not_mem_nil, or_false] at hm
    rcases hm with rfl | rfl | rfl | rfl
    · rfl
    · have hchars : ∀ c ∈ "sin".toList, c.isAlphanum = true := List.all_eq_true.1 rfl
      exact ⟨⟨'s', ['i', 'n'], rfl, by decide⟩, fun c hc => .inl (hchars c hc), by decide⟩
    · trivial
    · trivial
  refine ⟨hcount, fun a ha b hb => ?_⟩
  exact (Reachable.empty.next hproduct).display_eq_iff (hcount ▸ ha) (hcount ▸ hb) (hlegible a)
    (hlegible b)

end Dag

end SharedExpr
