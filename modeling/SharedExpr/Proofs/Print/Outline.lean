import Mathlib
import SharedExpr.Proofs.Access.Print
import SharedExpr.Proofs.Dag.DepthFirst

/-! The lines of an outline follow a depth-first search: one for its target and one for each operand
looked at, be it a line of its own or a reference to an earlier one. -/
namespace SharedExpr

variable {α : Type} [Scalar α] {d : Dag α}

namespace Walk

/-- The operands looked at with their uses, in order. -/
def looks (log : List Event) : List (NodeId × Use) :=
  log.filterMap fun
    | .look x use => some (x, use)
    | _ => none

/-- The uses of a node that are looked at are those among all operands looked at. -/
theorem looked_eq_usesAmong (id : NodeId) (log : List Event) :
    looked id log = usesAmong id (looks log) := by
  induction log with
  | nil => rfl
  | cons event log ih =>
    rw [looked, usesAmong, looks] at ih ⊢
    cases event with
    | enter | leave => simpa only [List.filterMap_cons] using ih
    | look x use => by_cases hx : x = id <;> simp [hx, ih]

theorem count_eq_count_usesAmong (x : NodeId) (use : Use) (slots : List (NodeId × Use)) :
    slots.count (x, use) = (usesAmong x slots).count use := by
  induction slots with
  | nil => rfl
  | cons slot slots ih =>
    rw [usesAmong] at ih ⊢
    by_cases hx : slot.1 = x
    · subst hx
      rw [List.filter_cons_of_pos (by simp), List.map_cons, List.count_cons, List.count_cons, ih]
      congr 1
      by_cases hu : slot.2 = use
      · simp [← hu]
      · simp [hu, Prod.ext_iff]
    · have hne : slot ≠ (x, use) := fun he => hx (he ▸ rfl)
      rw [List.count_cons_of_ne hne, ih, List.filter_cons_of_neg (by simpa using hx)]

/-- A search looks at the operand slots of the nodes under its root, each of them once. -/
theorem looks_search_perm (hw : d.WellFormed) {root : NodeId} (hroot : root < d.count) :
    (looks (search d root [])).Perm ((d.walk root).order.toList.flatMap (slots d)) := by
  obtain ⟨-, -, huses⟩ := Dag.walk_logs hw hroot
  rw [List.perm_iff_count]
  rintro ⟨x, use⟩
  rw [count_eq_count_usesAmong, count_eq_count_usesAmong, ← looked_eq_usesAmong, ← huses]
  exact ((Dag.walk_covers hw hroot).uses_perm x).count_eq use

theorem looks_concat_look (log : List Event) (x : NodeId) (use : Use) :
    looks (log ++ [Event.look x use]) = looks log ++ [(x, use)] := by
  simp [looks]

end Walk

namespace Outline

open Walk (Event search examine looks looks_concat_look)

namespace Entry

def node? : Entry → Option NodeId
  | .node _ _ id => some id
  | _ => none

def reference? : Entry → Option NodeId
  | .again _ id _ => some id
  | _ => none

/-- The node that the line is about, unless it is a heading. -/
def shown? : Entry → Option NodeId
  | .node _ _ id | .again _ id _ => some id
  | .primal _ | .derivative _ _ => none

theorem of_shown?_eq_none {entry : Entry} (h : entry.shown? = none) :
    entry.node? = none ∧ entry.reference? = none := by
  cases entry with
  | node | again => cases h
  | primal | derivative => exact ⟨rfl, rfl⟩

end Entry

def nodes (entries : List Entry) : List NodeId :=
  entries.filterMap Entry.node?

def references (entries : List Entry) : List NodeId :=
  entries.filterMap Entry.reference?

def shown (entries : List Entry) : List NodeId :=
  entries.filterMap Entry.shown?

theorem nodes_concat (entries : List Entry) (entry : Entry) :
    nodes (entries ++ [entry]) = nodes entries ++ entry.node?.toList := by
  rw [nodes, List.filterMap_append]
  cases entry <;> rfl

theorem references_concat (entries : List Entry) (entry : Entry) :
    references (entries ++ [entry]) = references entries ++ entry.reference?.toList := by
  rw [references, List.filterMap_append]
  cases entry <;> rfl

theorem shown_concat (entries : List Entry) (entry : Entry) :
    shown (entries ++ [entry]) = shown entries ++ entry.shown?.toList := by
  rw [shown, List.filterMap_append]
  cases entry <;> rfl

/-- Every line is a heading, a line of a node or a reference. -/
theorem length_nodes_add_references (entries : List Entry) :
    (nodes entries).length + (references entries).length = (shown entries).length := by
  induction entries using List.reverseRecOn with
  | nil => rfl
  | append_singleton entries entry ih =>
    rw [nodes_concat, references_concat, shown_concat, List.length_append, List.length_append,
      List.length_append, ← ih]
    cases entry <;> simp [Entry.node?, Entry.reference?, Entry.shown?] <;> omega

/-- A reference comes after a line of its node, and cites the level of that line. -/
def Cited (entries : List Entry) : Prop :=
  ∀ before margin x level after, entries = before ++ .again margin x level :: after →
    ∃ margin, .node margin level x ∈ before

/-- The slots whose operands were met before. -/
def repeats (met : List NodeId) : List (NodeId × Use) → List (NodeId × Use)
  | [] => []
  | slot :: slots =>
    if slot.1 ∈ met then slot :: repeats met slots else repeats (slot.1 :: met) slots

theorem repeats_concat (met : List NodeId) (slots : List (NodeId × Use)) (slot : NodeId × Use) :
    repeats met (slots ++ [slot]) = repeats met slots ++
      if slot.1 ∈ met ∨ slot.1 ∈ slots.map Prod.fst then [slot] else [] := by
  induction slots generalizing met with
  | nil => by_cases h : slot.1 ∈ met <;> simp [repeats, h]
  | cons s slots ih =>
    rw [List.cons_append, repeats, repeats]
    by_cases hs : s.1 ∈ met
    · have hmet : slot.1 = s.1 → slot.1 ∈ met := fun he => he ▸ hs
      rw [if_pos hs, if_pos hs, ih, List.cons_append]
      simp only [List.map_cons, List.mem_cons, ← or_assoc, or_iff_left_of_imp hmet]
    · rw [if_neg hs, if_neg hs, ih]
      simp only [List.map_cons, List.mem_cons, or_assoc, or_left_comm]

theorem Cited.concat {entries : List Entry} {entry : Entry} (h : Cited entries)
    (he : ∀ margin x level, entry = .again margin x level →
      ∃ margin, .node margin level x ∈ entries) : Cited (entries ++ [entry]) := by
  intro before margin x level after heq
  rcases List.eq_nil_or_concat after with rfl | ⟨after, last, rfl⟩
  · obtain ⟨rfl, hlast⟩ := List.append_inj' heq rfl
    exact he margin x level (List.singleton_inj.1 hlast)
  · rw [List.concat_eq_append, ← List.cons_append, ← List.append_assoc] at heq
    exact h before margin x level after (List.append_inj' heq rfl).1

/-- A node at one level more than the consumer whose slot is the first that leads to it. -/
def Below (slots : List (NodeId × Use)) (entries : List Entry) (x : NodeId) (level : Nat) : Prop :=
  ∃ use margin above, slots.find? (·.1 = x) = some (x, use) ∧
    .node margin above use.consumer ∈ entries ∧ level = above + 1

theorem Below.append {slots : List (NodeId × Use)} {entries : List Entry} {x : NodeId} {level : Nat}
    (h : Below slots entries x level) (slots' : List (NodeId × Use)) (entries' : List Entry) :
    Below (slots ++ slots') (entries ++ entries') x level := by
  obtain ⟨use, margin, above, hfind, hm, hlevel⟩ := h
  refine ⟨use, margin, above, ?_, List.mem_append_left _ hm, hlevel⟩
  rw [List.find?_append, hfind]
  rfl

/-- What hangs from a node at a level: a visit of each of its operands, and headings. -/
inductive Hangs (level : Nat) : List NodeId → List Task → Prop
  | nil : Hangs level [] []
  | line {entry : Entry} {operands : List NodeId} {todo : List Task} (he : entry.shown? = none)
    (h : Hangs level operands todo) : Hangs level operands (.line entry :: todo)
  | visit (margin : Margin) (x : NodeId) {operands : List NodeId} {todo : List Task}
    (h : Hangs level operands todo) : Hangs level (x :: operands) (.visit margin level x :: todo)

theorem operandTasks_hang (margin : Margin) (level : Nat) (operands : List NodeId) :
    Hangs level operands (operandTasks margin level operands) := by
  induction operands using operandTasks.induct with
  | case1 => exact .nil
  | case2 x => exact .visit _ x .nil
  | case3 x operands hne ih =>
    rw [operandTasks]
    · exact .visit _ x ih
    · exact hne

theorem partialTasks_hang (margin : Margin) (level : Nat) (parts : List (NodeId × NodeId)) :
    Hangs level (parts.map Prod.fst) (partialTasks margin level parts) := by
  induction parts using partialTasks.induct with
  | case1 => exact .nil
  | case2 x var => exact .line rfl (.visit _ x .nil)
  | case3 x var parts hne ih =>
    rw [partialTasks]
    · exact .line rfl (.visit _ x ih)
    · exact hne

theorem tasks_hang (h : d.Lawful) (margin : Margin) (level : Nat) {id : NodeId}
    (hid : id < d.count) : Hangs level (d.operands id) (tasks d margin level id) := by
  obtain ⟨node, hn⟩ := Dag.exists_node? hid
  rw [tasks, hn, Dag.operands_of_node? hn]
  cases h.admits hn with
  | lit | var => exact .nil
  | unary | binary => exact operandTasks_hang margin level _
  | @gradient primal partials vars hp hps hvs hlen =>
    have hparts := partialTasks_hang margin level (partials.zip vars)
    rw [List.map_fst_zip (Nat.le_of_eq hlen)] at hparts
    exact .line rfl (.visit _ primal hparts)

/-- The lines written after the events of a search for a target. -/
structure Traces (d : Dag α) (target : NodeId) (levels : Array (Option Nat)) (entries : List Entry)
    (log : List Event) : Prop where
  sized : levels.size = d.count
  unmet_iff : ∀ x < d.count, levels[x]? = some none ↔ Event.enter x ∉ log
  level_iff : ∀ x level, levels[x]? = some (some level) ↔ ∃ margin, .node margin level x ∈ entries
  first : entries.head? = some (.node ⟨"", .root⟩ 1 target)
  shown : shown entries = target :: (looks log).map Prod.fst
  nodup : (nodes entries).Nodup
  references : references entries = (repeats [target] (looks log)).map Prod.fst
  cited : Cited entries
  below : ∀ margin level x, .node margin level x ∈ entries → x ≠ target →
    Below (looks log) entries x level

namespace Traces

variable {target : NodeId} {levels : Array (Option Nat)} {entries : List Entry}
  {log : List Event} {margin : Margin} {level : Nat} {x : NodeId}

theorem start (d : Dag α) {target : NodeId} (htarget : target < d.count) :
    Traces d target (.setIfInBounds (.replicate d.count none) target (some 1))
      [.node ⟨"", .root⟩ 1 target] [Event.enter target] where
  sized := by simp
  unmet_iff x hx := by
    rw [Array.getElem?_setIfInBounds, Array.getElem?_replicate, if_pos hx]
    by_cases he : target = x <;> simp [he, hx, Ne.symm]
  level_iff x level := by
    rw [Array.getElem?_setIfInBounds, Array.getElem?_replicate, Array.size_replicate]
    by_cases he : target = x
    · subst he
      simp [htarget, eq_comm]
    · simp [he, Ne.symm he]
  first := rfl
  shown := rfl
  nodup := List.nodup_singleton target
  references := rfl
  cited := by
    have hnil : Cited [] := by simp [Cited]
    exact hnil.concat (by simp)
  below margin level x hm hx := by
    simp at hm
    exact absurd hm.2.2 hx

theorem mem_nodes_iff (h : Traces d target levels entries log) :
    x ∈ nodes entries ↔ ∃ level, levels[x]? = some (some level) := by
  simp only [h.level_iff, nodes, List.mem_filterMap]
  constructor
  · rintro ⟨entry, hm, he⟩
    cases entry with
    | node margin level id =>
      cases he
      exact ⟨_, _, hm⟩
    | again | primal | derivative => cases he
  · rintro ⟨level, margin, hm⟩
    exact ⟨_, hm, rfl⟩

theorem exists_level (h : Traces d target levels entries log) (hx : x < d.count)
    (hm : Event.enter x ∈ log) : ∃ level, levels[x]? = some (some level) := by
  cases hl : levels[x]? with
  | none => exact absurd (Array.getElem?_eq_none_iff.1 hl) (Nat.not_le_of_lt (h.sized.symm ▸ hx))
  | some level =>
    cases level with
    | none => exact absurd hm ((h.unmet_iff x hx).1 hl)
    | some level => exact ⟨level, rfl⟩

/-- What a line is about has a line of its own. -/
theorem mem_shown_iff (h : Traces d target levels entries log) :
    x ∈ Outline.shown entries ↔ ∃ level, levels[x]? = some (some level) := by
  simp only [h.level_iff, Outline.shown, List.mem_filterMap]
  constructor
  · rintro ⟨entry, hm, he⟩
    cases entry with
    | node margin level id =>
      cases he
      exact ⟨_, _, hm⟩
    | again margin id level =>
      cases he
      obtain ⟨before, after, rfl⟩ := List.append_of_mem hm
      obtain ⟨margin', hm'⟩ := h.cited _ _ _ _ _ rfl
      exact ⟨_, _, List.mem_append_left _ hm'⟩
    | primal | derivative => cases he
  · rintro ⟨level, margin, hm⟩
    exact ⟨_, hm, rfl⟩

theorem heading (h : Traces d target levels entries log) {entry : Entry}
    (he : entry.shown? = none) : Traces d target levels (entries ++ [entry]) log := by
  have hnode : ∀ margin level x, .node margin level x ≠ entry := by
    rintro margin level x rfl
    cases he
  have hagain : ∀ margin x level, entry ≠ .again margin x level := by
    rintro margin x level rfl
    cases he
  obtain ⟨hnone, hnone'⟩ := Entry.of_shown?_eq_none he
  refine ⟨h.sized, h.unmet_iff, fun x level => ?_, by simp [h.first], ?_, ?_, ?_, ?_,
    fun margin level x hm hx => ?_⟩
  · simp [h.level_iff, hnode]
  · rw [shown_concat, he, h.shown, Option.toList_none, List.append_nil]
  · rw [nodes_concat, hnone, Option.toList_none, List.append_nil]
    exact h.nodup
  · rw [references_concat, hnone', Option.toList_none, List.append_nil]
    exact h.references
  · exact h.cited.concat fun margin x level heq => absurd heq (hagain margin x level)
  · have hm : .node margin level x ∈ entries := by simpa [hnode] using hm
    simpa using (h.below margin level x hm hx).append [] [entry]

theorem met (h : Traces d target levels entries log) (hl : levels[x]? = some (some level))
    (margin : Margin) (use : Use) :
    Traces d target levels (entries ++ [.again margin x level]) (log ++ [.look x use]) := by
  have hmet : x ∈ [target] ∨ x ∈ (looks log).map Prod.fst := by
    have hx := h.mem_shown_iff.2 ⟨level, hl⟩
    rwa [h.shown, List.mem_cons, ← List.mem_singleton] at hx
  refine ⟨h.sized, fun y hy => ?_, fun y l => ?_, by simp [h.first], ?_, ?_, ?_, ?_,
    fun margin' l y hm hy => ?_⟩
  · simpa using h.unmet_iff y hy
  · simpa using h.level_iff y l
  · rw [shown_concat, h.shown, looks_concat_look, List.map_append]
    rfl
  · rw [nodes_concat]
    exact (List.append_nil (nodes entries)).symm ▸ h.nodup
  · rw [references_concat, h.references, looks_concat_look, repeats_concat, if_pos hmet,
      List.map_append]
    rfl
  · refine h.cited.concat fun margin' y l heq => ?_
    cases heq
    exact (h.level_iff _ _).1 hl
  · rw [looks_concat_look]
    exact (h.below margin' l y (by simpa using hm) hy).append _ _

theorem fresh (h : Traces d target levels entries log) (hx : x < d.count)
    (hl : levels[x]? = some none) (use : Use) (hm : .node margin level use.consumer ∈ entries)
    (margin' : Margin) :
    Traces d target (levels.setIfInBounds x (some (level + 1)))
      (entries ++ [.node margin' (level + 1) x]) (log ++ [.look x use] ++ [.enter x]) := by
  have hnew : ∀ level, levels[x]? ≠ some (some level) := by
    intro level he
    cases hl.symm.trans he
  have hunmet : ¬ (x ∈ [target] ∨ x ∈ (looks log).map Prod.fst) := by
    have hx := mt h.mem_shown_iff.1 (not_exists.2 hnew)
    rwa [h.shown, List.mem_cons, ← List.mem_singleton] at hx
  have hlooks : looks (log ++ [.look x use] ++ [.enter x]) = looks log ++ [(x, use)] := by
    simp [looks]
  have hset : ∀ y, (levels.setIfInBounds x (some (level + 1)))[y]? =
      if x = y then some (some (level + 1)) else levels[y]? := by
    intro y
    rw [Array.getElem?_setIfInBounds, h.sized, if_pos hx]
  refine ⟨by simp [h.sized], fun y hy => ?_, fun y l => ?_, by simp [h.first], ?_, ?_, ?_, ?_,
    fun margin₁ l y hm₁ hy => ?_⟩
  · rw [hset]
    by_cases he : x = y
    · simp [he]
    · simp [he, Ne.symm he, h.unmet_iff y hy]
  · rw [hset]
    by_cases he : x = y
    · subst he
      have hold : ∀ margin, .node margin l x ∉ entries := fun margin hm =>
        hnew l ((h.level_iff x l).2 ⟨margin, hm⟩)
      simp [hold, eq_comm]
    · simp [he, Ne.symm he, h.level_iff]
  · rw [shown_concat, h.shown, hlooks, List.map_append]
    rfl
  · rw [nodes_concat]
    have hnodup := h.nodup.concat (mt h.mem_nodes_iff.1 (not_exists.2 hnew))
    rwa [List.concat_eq_append] at hnodup
  · rw [references_concat, h.references, hlooks, repeats_concat, if_neg hunmet, List.append_nil]
    exact List.append_nil _
  · exact h.cited.concat (by simp)
  · rw [hlooks]
    rcases List.mem_append.1 hm₁ with hm₁ | hm₁
    · exact (h.below margin₁ l y hm₁ hy).append _ _
    · cases List.mem_singleton.1 hm₁
      have hnone : (looks log).find? (·.1 = x) = none := by
        rw [List.find?_eq_none]
        intro slot hslot he
        exact hunmet (.inr (List.mem_map.2 ⟨slot, hslot, by simpa using he⟩))
      refine ⟨use, margin, level, ?_, List.mem_append_left _ hm, rfl⟩
      rw [List.find?_append, hnone]
      simp

theorem leave (h : Traces d target levels entries log) :
    Traces d target levels entries (log ++ [.leave x]) where
  sized := h.sized
  unmet_iff y hy := by simpa using h.unmet_iff y hy
  level_iff := h.level_iff
  first := h.first
  shown := by simpa [looks] using h.shown
  nodup := h.nodup
  references := by simpa [looks] using h.references
  cited := h.cited
  below := by simpa [looks] using h.below

end Traces

/-- Some tasks write lines after which the search is at a later point, whatever is still to be
written. -/
def Writes (d : Dag α) (target : NodeId) (levels : Array (Option Nat)) (entries : List Entry)
    (todo : List Task) (log : List Event) : Prop :=
  ∃ levels' new, (∀ rest, run d levels (todo ++ rest) = new ++ run d levels' rest) ∧
    Traces d target levels' (entries ++ new) log

theorem Writes.cons {target : NodeId} {levels levels' : Array (Option Nat)} {entries : List Entry}
    {entry : Entry} {task : Task} {todo todo' : List Task} {log : List Event}
    (h : Writes d target levels' (entries ++ [entry]) todo' log)
    (hrun : ∀ rest, run d levels (task :: todo ++ rest) =
      entry :: run d levels' (todo' ++ rest)) :
    Writes d target levels entries (task :: todo) log := by
  obtain ⟨levels'', new, hnew, htraces⟩ := h
  refine ⟨levels'', entry :: new, fun rest => ?_, ?_⟩
  · rw [hrun, hnew, List.cons_append]
  · rwa [List.append_assoc] at htraces

theorem Writes.append {target : NodeId} {levels : Array (Option Nat)} {entries : List Entry}
    {todo todo' : List Task} {log log' : List Event}
    (h : Writes d target levels entries todo log)
    (h' : ∀ {levels' new}, Traces d target levels' (entries ++ new) log →
      Writes d target levels' (entries ++ new) todo' log') :
    Writes d target levels entries (todo ++ todo') log' := by
  obtain ⟨levels', new, hnew, htraces⟩ := h
  obtain ⟨levels'', new', hnew', htraces'⟩ := h' htraces
  refine ⟨levels'', new ++ new', fun rest => ?_, ?_⟩
  · rw [List.append_assoc, hnew, hnew', List.append_assoc]
  · rwa [List.append_assoc] at htraces'

/-- What hangs from a node is written as the node is searched. -/
theorem writes_search (hd : d.Lawful) {target id : NodeId} (hid : id < d.count)
    {levels : Array (Option Nat)} {entries : List Entry} {log : List Event} {margin : Margin}
    {level : Nat} (h : Traces d target levels entries (log ++ [Event.enter id]))
    (hnode : .node margin level id ∈ entries) :
    Writes d target levels entries (tasks d margin (level + 1) id) (search d id log) := by
  have hw := hd.wellFormed
  -- On the node, as operands are older, and for each node on what hangs from it. That the line of
  -- the node is there gives the level of those below it.
  induction id using Nat.strongRecOn generalizing levels entries log margin level with
  | _ id ih =>
    have hslots : ∀ {operands todo}, Hangs (level + 1) operands todo →
        ∀ {slots : List (NodeId × Nat)}, slots.map Prod.fst = operands → (∀ x ∈ operands, x < id) →
        ∀ {levels entries log}, Traces d target levels entries log →
          .node margin level id ∈ entries →
          Writes d target levels entries todo (slots.foldl (examine d id) log) := by
      intro operands todo hhang
      induction hhang with
      | nil =>
        intro slots heq _ levels entries log h _
        rw [List.map_eq_nil_iff.1 heq]
        exact ⟨levels, [], fun _ => rfl, (List.append_nil entries).symm ▸ h⟩
      | line he _ ihs =>
        intro slots heq hlt levels entries log h hnode
        refine (ihs heq hlt (h.heading he) (List.mem_append_left _ hnode)).cons fun rest => ?_
        rw [List.cons_append, run]
      | visit margin' x _ ihs =>
        intro slots hoperands hlt levels entries log h hnode
        obtain ⟨slot, slots, rfl, rfl, heq⟩ := List.map_eq_cons_iff.1 hoperands
        obtain ⟨hx, hlt⟩ := List.forall_mem_cons.1 hlt
        have hcount := Nat.lt_trans hx hid
        rw [List.foldl_cons, examine]
        by_cases hnew : Event.enter slot.1 ∉ log
        · have hl := (h.unmet_iff slot.1 hcount).2 hnew
          have hfresh := h.fresh hcount hl ⟨id, slot.2⟩ hnode margin'
          have hsearch := ih slot.1 hx hcount hfresh
            (List.mem_append_right _ (List.mem_singleton_self _))
          rw [if_pos hnew]
          refine (hsearch.append fun h' => ihs heq hlt h' ?_).cons fun rest => ?_
          · exact List.mem_append_left _ (List.mem_append_left _ hnode)
          · rw [List.cons_append, run_of_fresh hl, List.append_assoc]
        · obtain ⟨first, hl⟩ := h.exists_level hcount (not_not.1 hnew)
          rw [if_neg hnew]
          refine (ihs heq hlt (h.met hl margin' ⟨id, slot.2⟩)
            (List.mem_append_left _ hnode)).cons fun rest => ?_
          rw [List.cons_append, run_of_met hl]
    obtain ⟨levels', new, hrun, htraces⟩ := hslots (tasks_hang hd margin (level + 1) hid)
      (List.zipIdx_map_fst 0 (d.operands id)) (hw.operands_lt id) h hnode
    exact ⟨levels', new, hrun, Walk.search_eq hw id log ▸ htraces.leave⟩

end Outline

namespace Dag

open Outline

/-- The outline of a node has the lines of a search. -/
theorem traces_outline (hd : d.Lawful) {target : NodeId} (htarget : target < d.count) :
    ∃ levels, Traces d target levels (d.outline target) (Walk.search d target []) := by
  have hl : (Array.replicate d.count (none : Option Nat))[target]? = some none := by
    simp [htarget]
  have hwrites : Writes d target _ _ (tasks d ⟨"", .root⟩ 2 target) (Walk.search d target []) :=
    writes_search hd htarget (Traces.start d htarget) (List.mem_singleton_self _)
  obtain ⟨levels, new, hrun, htraces⟩ := hwrites
  refine ⟨levels, ?_⟩
  rw [outline, run_of_fresh hl, hrun, run, List.append_nil]
  exact htraces

/-- The operand slots under a node, in the order in which a depth-first search looks at them. -/
def slotsMet (d : Dag α) (root : NodeId) : List (NodeId × Use) :=
  Walk.looks (Walk.search d root [])

theorem mem_slotsMet_iff (hw : d.WellFormed) {root x : NodeId} {use : Use}
    (hroot : root < d.count) : (x, use) ∈ d.slotsMet root ↔
      d.Reaches root use.consumer ∧ (d.operands use.consumer)[use.position]? = some x := by
  rw [slotsMet, (Walk.looks_search_perm hw hroot).mem_iff, (walk_covers hw hroot).mem_slots_iff]

theorem nodup_slotsMet (hw : d.WellFormed) {root : NodeId} (hroot : root < d.count) :
    (d.slotsMet root).Nodup := by
  rw [slotsMet, (Walk.looks_search_perm hw hroot).nodup_iff]
  exact .of_map _ (walk_covers hw hroot).nodup_slots

theorem length_slotsMet (hw : d.WellFormed) {root : NodeId} (hroot : root < d.count) :
    (d.slotsMet root).length =
      ((d.walk root).order.toList.map fun id => (d.operands id).length).sum := by
  rw [slotsMet, (Walk.looks_search_perm hw hroot).length_eq, List.length_flatMap]
  simp [Walk.slots]

end Dag

namespace Outline

/-- The lines of an outline are those for a target and for the slots under it: a line of its own for
each node, a reference for each other slot. -/
structure Complete (d : Dag α) (target : NodeId) (slots : List (NodeId × Use))
    (entries : List Entry) : Prop where
  first : entries.head? = some (.node ⟨"", .root⟩ 1 target)
  shown : shown entries = target :: slots.map Prod.fst
  nodup : (nodes entries).Nodup
  mem_nodes_iff : ∀ x, x ∈ nodes entries ↔ d.Reaches target x
  references : references entries = (repeats [target] slots).map Prod.fst
  cited : Cited entries
  level : ∀ margin level x, .node margin level x ∈ entries →
    x = target ∧ level = 1 ∨ Below slots entries x level

end Outline

namespace Dag

theorem complete_outline (hd : d.Lawful) {target : NodeId} (htarget : target < d.count) :
    Outline.Complete d target (d.slotsMet target) (d.outline target) := by
  have hw := hd.wellFormed
  obtain ⟨levels, h⟩ := traces_outline hd htarget
  refine ⟨h.first, h.shown, h.nodup, fun x => ?_, h.references, h.cited,
    fun margin level x hm => ?_⟩
  · rw [h.mem_nodes_iff, ← h.mem_shown_iff, h.shown, List.mem_cons]
    constructor
    · rintro (rfl | hx)
      · exact .refl
      · obtain ⟨⟨_, use⟩, hslot, rfl⟩ := List.mem_map.1 hx
        obtain ⟨hreach, hop⟩ := (mem_slotsMet_iff hw htarget).1 hslot
        exact hreach.tail (List.mem_of_getElem? hop)
    · intro hreach
      rcases Relation.ReflTransGen.cases_tail hreach with rfl | ⟨consumer, hconsumer, hx⟩
      · exact .inl rfl
      · obtain ⟨position, hop⟩ := List.mem_iff_getElem?.1 hx
        exact .inr (List.mem_map.2 ⟨(x, ⟨consumer, position⟩),
          (mem_slotsMet_iff hw htarget).2 ⟨hconsumer, hop⟩, rfl⟩)
  · by_cases hx : x = target
    · subst hx
      have hfirst := List.mem_of_head? h.first
      have hl := (h.level_iff x level).2 ⟨margin, hm⟩
      rw [(h.level_iff x 1).2 ⟨_, hfirst⟩] at hl
      exact .inl ⟨rfl, (Option.some.inj (Option.some.inj hl)).symm⟩
    · exact .inr (h.below margin level x hm hx)

end Dag

end SharedExpr
