import Mathlib
import SharedExpr.Proofs.Code.Words
import SharedExpr.Proofs.Eval.Reuse
import SharedExpr.Proofs.Print.Outline

/-! The text of an outline, line by line, and the values that it shows. -/
namespace SharedExpr

/-- Lines that are each ended by a line break are found between the line breaks. -/
theorem splitOn_join_lines {lines : List String} (h : ∀ line ∈ lines, '\n' ∉ line.toList) :
    (String.join (lines.map (· ++ "\n"))).toList.splitOn '\n' =
      lines.map String.toList ++ [[]] := by
  have hjoin : ∀ lines : List String, (String.join (lines.map (· ++ "\n"))).toList =
      ['\n'].intercalate (lines.map String.toList ++ [[]]) := by
    intro lines
    rw [String.toList_join]
    induction lines with
    | nil => rfl
    | cons line lines ih =>
      rw [List.map_cons, List.map_cons, List.flatMap_cons, List.cons_append,
        List.intercalate_cons_of_ne_nil (by simp), ← ih, String.toList_append]
      rfl
  rw [hjoin, List.splitOn_intercalate '\n' ?_ (by simp)]
  simpa [or_imp, forall_and] using h

theorem Double.isConstantChar_places (x : Double) :
    ∀ c ∈ (places x).toList, isConstantChar c = true := by
  rw [places]
  split
  · exact List.all_eq_true.1 rfl
  · split
    · exact isConstantChar_render .plain x
    · have hsign : ∀ c ∈ (if x.negative then "-" else "").toList, isConstantChar c = true := by
        cases x.negative <;> exact List.all_eq_true.1 rfl
      intro c hc
      simp only [toString, String.toList_append, String.toList_ofList, List.mem_append,
        Nat.toList_repr] at hc
      rcases hc with (((hc | hc) | hc) | hc)
      · exact hsign c hc
      · exact isConstantChar_digits _ c hc
      · exact List.all_eq_true.1 rfl c hc
      · exact isConstantChar_digits _ c (List.mem_of_mem_drop hc)

namespace Outline

def inMargin (c : Char) : Bool :=
  " |`-".toList.contains c

def body (line : List Char) : List Char :=
  line.dropWhile inMargin

/-- A line that begins with its level. -/
def isNodeLine (line : List Char) : Bool :=
  "[L".toList.isPrefixOf (body line)

/-- A line that begins with an arrow, the shaft of which counts as margin, and refers to a level. -/
def isReferenceLine (line : List Char) : Bool :=
  ">".toList.isPrefixOf (body line) && decide ("(Ref to L".toList <:+: line)

/-- A margin of nothing but branches and blanks. -/
def Margin.Blank (m : Margin) : Prop :=
  ∀ c ∈ m.stem.toList, inMargin c = true

namespace Margin

variable {m : Margin}

theorem Blank.hang (h : m.Blank) (branch : Branch) : (m.hang branch).Blank := by
  rw [Blank, Margin.hang, String.toList_append]
  refine List.forall_mem_append.2 ⟨h, ?_⟩
  cases m.branch <;> exact List.all_eq_true.1 rfl

theorem Blank.text (h : m.Blank) : ∀ c ∈ m.text.toList, inMargin c = true := by
  rw [Margin.text, String.toList_append]
  refine List.forall_mem_append.2 ⟨h, ?_⟩
  cases m.branch <;> exact List.all_eq_true.1 rfl

end Margin

def Entry.margin : Entry → Margin
  | .node margin _ _ | .again margin _ _ | .primal margin | .derivative margin _ => margin

def Task.margin : Task → Margin
  | .line entry => entry.margin
  | .visit margin _ _ => margin

section Margins

variable {α : Type} [Scalar α] {d : Dag α} {margin : Margin}

theorem operandTasks_blank (h : margin.Blank) (level : Nat) (operands : List NodeId) :
    ∀ task ∈ operandTasks margin level operands, task.margin.Blank := by
  induction operands using operandTasks.induct with
  | case1 => exact List.forall_mem_nil _
  | case2 x => exact List.forall_mem_singleton.2 (h.hang _)
  | case3 x operands hne ih =>
    rw [operandTasks]
    · exact List.forall_mem_cons.2 ⟨h.hang _, ih⟩
    · exact hne

theorem partialTasks_blank (h : margin.Blank) (level : Nat) (parts : List (NodeId × NodeId)) :
    ∀ task ∈ partialTasks margin level parts, task.margin.Blank := by
  induction parts using partialTasks.induct with
  | case1 => exact List.forall_mem_nil _
  | case2 x var => exact List.forall_mem_cons.2 ⟨h.hang _, List.forall_mem_singleton.2 (h.hang _)⟩
  | case3 x var parts hne ih =>
    rw [partialTasks]
    · exact List.forall_mem_cons.2 ⟨h.hang _, List.forall_mem_cons.2 ⟨h.hang _, ih⟩⟩
    · exact hne

theorem tasks_blank (h : margin.Blank) (level : Nat) (id : NodeId) :
    ∀ task ∈ tasks d margin level id, task.margin.Blank := by
  rw [tasks]
  split
  · exact operandTasks_blank h level _
  · exact operandTasks_blank h level _
  · exact List.forall_mem_cons.2 ⟨h.hang _,
      List.forall_mem_cons.2 ⟨h.hang _, partialTasks_blank h level _⟩⟩
  · exact List.forall_mem_nil _

theorem run_blank {levels : Array (Option Nat)} {todo : List Task}
    (h : ∀ task ∈ todo, task.margin.Blank) : ∀ entry ∈ run d levels todo, entry.margin.Blank := by
  induction levels, todo using run.induct d with
  | case1 levels => simp [run]
  | case2 levels entry rest ih =>
    obtain ⟨hentry, hrest⟩ := List.forall_mem_cons.1 h
    rw [run]
    exact List.forall_mem_cons.2 ⟨hentry, ih hrest⟩
  | case3 levels margin level id rest hl ih =>
    obtain ⟨hmargin, hrest⟩ := List.forall_mem_cons.1 h
    rw [run_of_fresh hl]
    exact List.forall_mem_cons.2
      ⟨hmargin, ih (List.forall_mem_append.2 ⟨tasks_blank hmargin _ _, hrest⟩)⟩
  | case4 levels margin level id rest first hl ih =>
    obtain ⟨hmargin, hrest⟩ := List.forall_mem_cons.1 h
    rw [run_of_met hl]
    exact List.forall_mem_cons.2 ⟨hmargin, ih hrest⟩
  | case5 levels margin level id rest hl ih =>
    obtain ⟨-, hrest⟩ := List.forall_mem_cons.1 h
    rw [run]
    split
    · next hl' => cases hl.symm.trans hl'
    · next hl' => cases hl.symm.trans hl'
    · exact ih hrest

end Margins

end Outline

def Dag.Unbroken (d : Dag Double) : Prop :=
  ∀ id name, d.name? id = some name → '\n' ∉ name.toList

namespace Outline

variable {d : Dag Double} {m : Memo Double}

theorem body_append {margin : Margin} (h : margin.Blank) (line : List Char) :
    body (margin.text.toList ++ line) = body line :=
  List.dropWhile_append_of_pos h.text

/-- The lines of the two kinds are told apart where their margins end. -/
theorem kind_text {entry : Entry} (h : entry.margin.Blank) :
    isNodeLine (entry.text d m).toList = entry.node?.isSome ∧
      isReferenceLine (entry.text d m).toList = entry.reference?.isSome := by
  cases entry with
  | node margin level id =>
    obtain ⟨line, hline⟩ : ∃ line, ((Entry.node margin level id).text d m).toList =
        margin.text.toList ++ '[' :: 'L' :: line := by
      simp [Entry.text, toString]
    have hbody : body (margin.text.toList ++ '[' :: 'L' :: line) = '[' :: 'L' :: line :=
      body_append h _
    rw [hline, isNodeLine, isReferenceLine, hbody]
    exact ⟨rfl, rfl⟩
  | again margin id level =>
    have hline : ((Entry.again margin id level).text d m).toList =
        (margin.text.toList ++ '-' :: '>' :: ' ' :: ((d.outlineName id).toList ++ [' '])) ++
          "(Ref to L".toList ++ ((toString level).toList ++ [')']) := by
      simp [Entry.text, toString]
    have hinfix : "(Ref to L".toList <:+: ((Entry.again margin id level).text d m).toList :=
      ⟨_, _, hline.symm⟩
    obtain ⟨line, hbody⟩ : ∃ line, body ((Entry.again margin id level).text d m).toList =
        '>' :: line := by
      rw [hline, List.append_assoc, List.append_assoc, body_append (show margin.Blank from h)]
      exact ⟨_, rfl⟩
    rw [isNodeLine, isReferenceLine, hbody, decide_eq_true hinfix]
    exact ⟨rfl, rfl⟩
  | primal margin =>
    have hline : ((Entry.primal margin).text d m).toList =
        margin.text.toList ++ " primal".toList := by
      simp [Entry.text, toString]
    have hbody : body (margin.text.toList ++ " primal".toList) = "primal".toList := body_append h _
    rw [hline, isNodeLine, isReferenceLine, hbody]
    exact ⟨rfl, rfl⟩
  | derivative margin var =>
    obtain ⟨line, hline⟩ : ∃ line, ((Entry.derivative margin var).text d m).toList =
        margin.text.toList ++ ' ' :: 'd' :: line := by
      simp [Entry.text, toString]
    have hbody : body (margin.text.toList ++ ' ' :: 'd' :: line) = 'd' :: line := body_append h _
    rw [hline, isNodeLine, isReferenceLine, hbody]
    exact ⟨rfl, rfl⟩

theorem countP_text {entries : List Entry} (h : ∀ entry ∈ entries, entry.margin.Blank) :
    (entries.map fun entry => (entry.text d m).toList).countP isNodeLine =
        (nodes entries).length ∧
      (entries.map fun entry => (entry.text d m).toList).countP isReferenceLine =
        (references entries).length := by
  rw [List.countP_map, List.countP_map, nodes, references, List.length_filterMap_eq_countP,
    List.length_filterMap_eq_countP]
  refine ⟨List.countP_congr fun entry hm => ?_, List.countP_congr fun entry hm => ?_⟩
  · rw [Function.comp_apply, (kind_text (h entry hm)).1]
  · rw [Function.comp_apply, (kind_text (h entry hm)).2]

theorem break_not_mem {cs : List Char} (h : ∀ c ∈ cs, isConstantChar c = true) : '\n' ∉ cs :=
  fun hm => absurd (h _ hm) (by decide)

theorem break_not_mem_outlineName (hnames : d.Unbroken) (id : NodeId) :
    '\n' ∉ (d.outlineName id).toList := by
  rw [Dag.outlineName]
  split
  · next name hl => exact hnames id name (by simp [Dag.name?, hl, Label.name?])
  · next value hl => exact break_not_mem (Double.isConstantChar_render .plain value)
  · simpa [toString] using break_not_mem (isConstantChar_digits id)

theorem break_not_mem_operandText (hnames : d.Unbroken) (id : NodeId) :
    '\n' ∉ (operandText d m id).toList := by
  have hvalue : '\n' ∉ (valueText m id).toList := by
    rw [valueText]
    split
    · next value _ =>
      have hplaces : '\n' ∉ (ScalarText.places value).toList :=
        break_not_mem (Double.isConstantChar_places value)
      simpa [toString] using hplaces
    · decide
  simpa [operandText] using ⟨break_not_mem_outlineName hnames id, hvalue⟩

theorem break_not_mem_text (hnames : d.Unbroken) {entry : Entry} (h : entry.margin.Blank) :
    '\n' ∉ (entry.text d m).toList := by
  have hlevel : ∀ n : Nat, '\n' ∉ Nat.toDigits 10 n := fun n =>
    break_not_mem (isConstantChar_digits n)
  have hmargin : ∀ {margin : Margin}, margin.Blank → '\n' ∉ margin.text.toList :=
    fun h hm => absurd (h.text _ hm) (by decide)
  have hname := break_not_mem_outlineName hnames
  have hoperand : ∀ id, '\n' ∉ (operandText d m id).toList := break_not_mem_operandText hnames
  have hdefinition : ∀ id, '\n' ∉ (definitionText d m id).toList := by
    intro id
    rw [definitionText]
    split
    · decide
    · next name _ hn =>
      have hbreak := hnames id name (by simp [Dag.name?, Dag.label?_of_node? hn, Label.name?])
      simpa [toString] using hbreak
    · next x _ hn => simpa [toString] using hoperand x
    · next op x _ _ hn => cases op <;> simpa [toString, Unary.name] using hoperand x
    · next op x y _ hn =>
      cases op <;> simpa [toString, Binary.symbol] using ⟨hoperand x, hoperand y⟩
    · decide
    · decide
  cases entry with
  | node margin level id =>
    simpa [Entry.text, toString] using ⟨hmargin h, hlevel level, hoperand id, hdefinition id⟩
  | again margin id level =>
    simpa [Entry.text, toString] using ⟨hmargin h, hname id, hlevel level⟩
  | primal margin => simpa [Entry.text, toString] using hmargin (show margin.Blank from h)
  | derivative margin var => simpa [Entry.text, toString] using ⟨hmargin h, hname var⟩

theorem text_congr {m m' : Memo Double} {entry : Entry}
    (h : ∀ margin level id, entry = .node margin level id →
      ∀ x ∈ id :: d.operands id, m.get? x = m'.get? x) : entry.text d m = entry.text d m' := by
  cases entry with
  | node margin level id =>
    have hoperand : ∀ x ∈ id :: d.operands id, operandText d m x = operandText d m' x := by
      intro x hx
      rw [operandText, operandText, valueText, valueText, h margin level id rfl x hx]
    have hdefinition : definitionText d m id = definitionText d m' id := by
      rw [definitionText, definitionText]
      have hunder : ∀ {label operands}, d.node? id = some ⟨label, operands⟩ →
          ∀ x ∈ operands, operandText d m x = operandText d m' x := fun hn x hx =>
        hoperand x (List.mem_cons_of_mem _ (Dag.operands_of_node? hn ▸ hx))
      split
      · rfl
      · rfl
      · next x _ hn => rw [hunder hn x (by simp)]
      · next op x _ _ hn => rw [hunder hn x (by simp)]
      · next op x y _ hn => rw [hunder hn x (by simp), hunder hn y (by simp)]
      · rfl
      · rfl
    rw [Entry.text, Entry.text, hdefinition, hoperand id List.mem_cons_self]
  | again | primal | derivative => rfl

theorem places_ne_missing (x : Double) : s!"[{x.places}]" ≠ "[?]" := by
  intro he
  have hl : x.places.toList ++ [']'] = ['?'] ++ [']'] := by
    simpa [toString] using congrArg String.toList he
  have hm : '?' ∈ x.places.toList := by
    rw [List.append_cancel_right hl]
    exact List.mem_singleton_self _
  exact absurd (x.isConstantChar_places _ hm) (by decide)

end Outline

namespace Dag

open Outline

variable {d : Dag Double} {target : NodeId}

theorem outline_blank (d : Dag Double) (target : NodeId) :
    ∀ entry ∈ d.outline target, entry.margin.Blank :=
  run_blank (List.forall_mem_singleton.2 (List.forall_mem_nil _))

theorem splitOn_outlineText (htarget : target < d.count) (hnames : d.Unbroken) (m : Memo Double) :
    (d.outlineText m target).toList.splitOn '\n' =
      s!"AUDIT TRACE for node {d.outlineName target}:".toList :: List.replicate 50 '-' ::
        (d.outline target).map (fun entry => (entry.text d m).toList) ++ [[]] := by
  have hcontains : d.contains target = true := by simpa [Dag.contains] using htarget
  have hbreak : ∀ line ∈ s!"AUDIT TRACE for node {d.outlineName target}:" ::
      String.ofList (.replicate 50 '-') :: (d.outline target).map (Entry.text d m),
      '\n' ∉ line.toList := by
    refine List.forall_mem_cons.2 ⟨?_, List.forall_mem_cons.2 ⟨by decide, fun line hm => ?_⟩⟩
    · simpa [toString] using break_not_mem_outlineName hnames target
    · obtain ⟨entry, hentry, rfl⟩ := List.mem_map.1 hm
      exact break_not_mem_text hnames (outline_blank d target entry hentry)
  rw [outlineText, if_pos hcontains, splitOn_join_lines hbreak]
  simp

theorem countP_outlineText (htarget : target < d.count) (hnames : d.Unbroken) (m : Memo Double) :
    ((d.outlineText m target).toList.splitOn '\n').countP isNodeLine =
        (nodes (d.outline target)).length ∧
      ((d.outlineText m target).toList.splitOn '\n').countP isReferenceLine =
        (references (d.outline target)).length := by
  have hcount : ((d.outline target).map fun entry => (entry.text d m).toList).countP isNodeLine =
        (nodes (d.outline target)).length ∧
      ((d.outline target).map fun entry => (entry.text d m).toList).countP isReferenceLine =
        (references (d.outline target)).length := countP_text (outline_blank d target)
  obtain ⟨heading, hheading⟩ : ∃ heading,
      s!"AUDIT TRACE for node {d.outlineName target}:".toList = 'A' :: heading := by
    simp [toString]
  have hnode : isNodeLine ('A' :: heading) = false ∧ isReferenceLine ('A' :: heading) = false :=
    ⟨rfl, rfl⟩
  have hdashes : isNodeLine (.replicate 50 '-') = false ∧
      isReferenceLine (.replicate 50 '-') = false := by decide
  have hempty : isNodeLine [] = false ∧ isReferenceLine [] = false := by decide
  rw [splitOn_outlineText htarget hnames m, hheading]
  simp only [List.cons_append, List.countP_cons, List.countP_append, List.countP_nil, hcount, hnode,
    hdashes, hempty]
  exact ⟨rfl, rfl⟩

/-- After an evaluation of a node above the target all values in the outline are there. -/
theorem valueText_of_runOn (hd : d.Lawful) {call : Call Double} {l l' : Ledger Double}
    {value : Double} {m : Memo Double} (hrun : call.runOn d l = some (.ok value, l'))
    (hs : l'.Shows m) :
    ∃ b, call.bindings d = .ok b ∧ ∀ x, d.Reaches call.root x →
      ∃ v, d.evaluate x b = .ok v ∧ Outline.valueText m x = s!"[{Double.places v}]" := by
  obtain ⟨m₀, hm₀⟩ := l.exists_shows
  obtain ⟨l₁, hl₁, hs₁⟩ := call.runOn_eq hd hm₀
  obtain ⟨hanswer, rfl⟩ := Prod.mk.inj (Option.some.inj (hl₁.symm.trans hrun))
  obtain ⟨b, m₁, hb, he, hm₁⟩ := Call.run_of_answer_eq_ok hanswer m₀
  rw [hm₁] at hs₁
  have hρ : ∀ name x, b name = some x → (fun name => (b name).getD Double.one) name = x :=
    fun name x hx => by simp [hx]
  obtain ⟨rfl, hrecords⟩ := evaluateAll_records hd he hs₁ hρ
  have hevaluate : d.evaluate call.root b = .ok _ := congrArg (Except.map Prod.fst) he
  obtain ⟨hroot, hbound, -⟩ := (evaluate_eq_ok_iff hd hρ).1 hevaluate
  refine ⟨b, hb, fun x hx => ⟨_, (evaluate_eq_ok_iff hd hρ).2 ⟨?_, ?_, rfl⟩, ?_⟩⟩
  · exact hx.lt_count hd.wellFormed hroot
  · rintro name ⟨v, hv, hname⟩
    exact hbound name ⟨v, hx.trans hv, hname⟩
  · rw [Outline.valueText, ← hs.get?_eq, hrecords.get?_eq x hx]
    rfl

/-- The text shows the values of the nodes under the target and no others. -/
theorem outlineText_congr (hd : d.Lawful) (htarget : target < d.count) {m m' : Memo Double}
    (h : ∀ x, d.Reaches target x → m.get? x = m'.get? x) :
    d.outlineText m target = d.outlineText m' target := by
  have hlines : (d.outline target).map (Entry.text d m) =
      (d.outline target).map (Entry.text d m') := by
    refine List.map_congr_left fun entry hm => text_congr fun margin level id he x hx => h x ?_
    have hid : id ∈ nodes (d.outline target) := List.mem_filterMap.2 ⟨entry, hm, he ▸ rfl⟩
    have hreach := ((complete_outline hd htarget).mem_nodes_iff id).1 hid
    rcases List.mem_cons.1 hx with rfl | hx
    · exact hreach
    · exact hreach.tail hx
  rw [outlineText, outlineText, hlines]

/-- An outline covers each node under its target once. The operand slots under the target are the
edges of the expression; a depth-first search looks at each of them once, from left to right. The
outline has a line for the target, at level one, and a line for each slot in turn: a line of its own
for a node not met before, one level below the consumer, and for each other slot a reference, which
stands below the line of its node and cites the level of that. It is written for every ledger, and
if no name has a line break, the lines of both kinds can be counted in the text. After a successful
evaluation of a node above the target, the values shown are those of the nodes, and none is
missing. -/
theorem Reachable.outline_complete (h : d.Reachable) (htarget : target < d.count) :
    let slots := d.slotsMet target
    let entries := d.outline target
    (slots.Nodup ∧
      (∀ x use, (x, use) ∈ slots ↔
        d.Reaches target use.consumer ∧ (d.operands use.consumer)[use.position]? = some x) ∧
      slots.length = ((d.walk target).order.toList.map fun id => (d.operands id).length).sum) ∧
    Outline.Complete d target slots entries ∧
    (references entries).length + (nodes entries).length = slots.length + 1 ∧
    (∀ l : Ledger Double, ∃ m, l.Shows m ∧
      Access.outlineText d l target = some (d.outlineText m target)) ∧
    (d.Unbroken → ∀ m : Memo Double,
      let lines := (d.outlineText m target).toList.splitOn '\n'
      lines = s!"AUDIT TRACE for node {d.outlineName target}:".toList :: List.replicate 50 '-' ::
        entries.map (fun entry => (entry.text d m).toList) ++ [[]] ∧
      lines.countP isNodeLine = (nodes entries).length ∧
      lines.countP isReferenceLine = (references entries).length) ∧
    ∀ (call : Call Double) (l l' : Ledger Double) (value : Double),
      call.runOn d l = some (.ok value, l') → d.Reaches call.root target →
      ∃ b m, call.bindings d = .ok b ∧ l'.Shows m ∧
        (∀ x, d.Reaches target x → ∃ v, d.evaluate x b = .ok v ∧
          Outline.valueText m x = s!"[{v.places}]" ∧ Outline.valueText m x ≠ "[?]") ∧
        ∀ m', (∀ x, d.Reaches target x → m'.get? x = m.get? x) →
          Access.outlineText d l' target = some (d.outlineText m' target) := by
  intro slots entries
  have hd := h.lawful
  have hw := hd.wellFormed
  have hcomplete : Outline.Complete d target slots entries := complete_outline hd htarget
  refine ⟨⟨nodup_slotsMet hw htarget, fun x use => mem_slotsMet_iff hw htarget,
    length_slotsMet hw htarget⟩, hcomplete, ?_, fun l => ?_, fun hnames m => ?_,
    fun call l l' value hrun hreach => ?_⟩
  · rw [Nat.add_comm, length_nodes_add_references, hcomplete.shown]
    simp
  · obtain ⟨m, hm⟩ := l.exists_shows
    exact ⟨m, hm, Access.outlineText_eq hd hm target⟩
  · exact ⟨splitOn_outlineText htarget hnames m, countP_outlineText htarget hnames m⟩
  · obtain ⟨m, hm⟩ := l'.exists_shows
    obtain ⟨b, hb, hvalues⟩ := valueText_of_runOn hd hrun hm
    refine ⟨b, m, hb, hm, fun x hx => ?_, fun m' hm' => ?_⟩
    · obtain ⟨v, hv, htext⟩ := hvalues x (hreach.trans hx)
      exact ⟨v, hv, htext, htext ▸ places_ne_missing v⟩
    · rw [Access.outlineText_eq hd hm, outlineText_congr hd htarget hm']

def bundledPower : Dag Double :=
  ((Command.gradient ⟨1, [0], [0]⟩).run
    ((Command.build (.binary .pow (.var "x") (.var "x"))).run empty).2).2

theorem reachable_bundledPower : bundledPower.Reachable := by
  have hpower : ((Command.build (.binary .pow (.var "x") (.var "x"))).run
      (empty : Dag Double)).1 = some (.node 1) := by cbv
  have hbundle : ((Command.gradient ⟨1, [0], [0]⟩).run
      ((Command.build (.binary .pow (.var "x") (.var "x"))).run (empty : Dag Double)).2).1 =
      some (.node 2) := by cbv
  exact (Reachable.empty.next hpower).next hbundle

/-- The bundle of a power shows the power and the two uses of the variable in it, and then the
variable again as a part. -/
theorem bundledPower_outline_complete :
    bundledPower.slotsMet 2 = [(1, ⟨2, 0⟩), (0, ⟨1, 0⟩), (0, ⟨1, 1⟩), (0, ⟨2, 1⟩)] ∧
    (nodes (bundledPower.outline 2) = [2, 1, 0] ∧ references (bundledPower.outline 2) = [0, 0]) ∧
    (∀ m : Memo Double,
      ((bundledPower.outlineText m 2).toList.splitOn '\n').countP isReferenceLine = 2) ∧
    ∃ (l' : Ledger Double) (m : Memo Double),
      (Call.named 2 fun _ => some Double.one).runOn bundledPower .empty =
        some (.ok (bundledPower.denote (fun _ => Double.one) 2), l') ∧
      Access.outlineText bundledPower l' 2 = some (bundledPower.outlineText m 2) ∧
      Outline.valueText m 0 = s!"[{Double.one.places}]" := by
  have hd := reachable_bundledPower.lawful
  have hroot : (2 : NodeId) < bundledPower.count := by cbv
  have hslots : bundledPower.slotsMet 2 =
      [(1, ⟨2, 0⟩), (0, ⟨1, 0⟩), (0, ⟨1, 1⟩), (0, ⟨2, 1⟩)] := by cbv
  have hnodes : nodes (bundledPower.outline 2) = [2, 1, 0] := by cbv
  have hlabels : bundledPower.labels.toList = [.var "x", .binary .pow, .gradient [0]] := by cbv
  have hvar : bundledPower.node? 0 = some ⟨.var "x", []⟩ := by cbv
  have hnames : bundledPower.Unbroken := by
    intro id name hname
    obtain ⟨label, hl, hname⟩ := Option.bind_eq_some_iff.1 hname
    have hm : label ∈ bundledPower.labels.toList :=
      Array.mem_toList_iff.2 (Array.mem_of_getElem? hl)
    rw [hlabels] at hm
    simp only [List.mem_cons, List.not_mem_nil, or_false] at hm
    rcases hm with rfl | rfl | rfl
    · cases hname
      decide
    · cases hname
    · cases hname
  have hρ : ∀ name x, (fun _ : String => some Double.one) name = some x →
      (fun _ : String => Double.one) name = x := fun _ _ hx => Option.some.inj hx
  have hvalue : (Call.named 2 fun _ => some Double.one).answer bundledPower =
      .ok (bundledPower.denote (fun _ => Double.one) 2) :=
    (evaluator_eq .empty _).trans <| evaluate_eq hd hroot fun _ _ _ _ => rfl
  obtain ⟨l', hrun, -⟩ := Call.runOn_eq hd (.named 2 fun _ => some Double.one) Ledger.shows_empty
  rw [hvalue] at hrun
  obtain ⟨-, hcomplete, -, -, htext, hvalues⟩ := reachable_bundledPower.outline_complete hroot
  have hreferences : references (bundledPower.outline 2) = [0, 0] := by
    rw [hcomplete.references, hslots]
    rfl
  obtain ⟨b, m, hb, -, hshown, hall⟩ := hvalues _ _ _ _ hrun .refl
  cases hb
  obtain ⟨v, hv, hannotation, -⟩ := hshown 0 ((hcomplete.mem_nodes_iff 0).1 (by simp [hnodes]))
  obtain ⟨-, -, rfl⟩ := (evaluate_eq_ok_iff hd hρ).1 hv
  rw [denote_eq hd.wellFormed _ hvar] at hannotation
  refine ⟨hslots, ⟨hnodes, hreferences⟩, fun m => ?_, l', m, hrun, hall m fun _ _ => rfl,
    hannotation⟩
  rw [(htext hnames m).2.2, hreferences]
  rfl

end Dag

end SharedExpr
