import Mathlib
import SharedExpr.Code.Locality
import SharedExpr.Proofs.Code.Shape

/-! The statistics of a function count each instruction of its body and each read, the reads by the
distance to the latest definition. -/
namespace SharedExpr

/-- The place at which a body defines a register for the last time before a given place. -/
def lastDefinition? (body : List Instruction) (text : String) : Nat → Option Nat
  | 0 => none
  | i + 1 =>
    if body[i]?.bind Instruction.dest? = some text then some i else lastDefinition? body text i

theorem lastDefinition?_eq_some_iff {body : List Instruction} {text : String} {i j : Nat} :
    lastDefinition? body text i = some j ↔
      j < i ∧ body[j]?.bind Instruction.dest? = some text ∧
        ∀ k, j < k → k < i → body[k]?.bind Instruction.dest? ≠ some text := by
  induction i with
  | zero => simp [lastDefinition?]
  | succ i ih =>
    rw [lastDefinition?]
    split
    · next hi =>
      constructor
      · intro he
        obtain rfl := Option.some.inj he
        exact ⟨Nat.lt_succ_self i, hi, fun k hk hki => absurd hk (by omega)⟩
      · rintro ⟨hj, -, hlast⟩
        by_contra hsome
        have hne : i ≠ j := fun he => hsome (congrArg some he)
        exact hlast i (by omega) (Nat.lt_succ_self i) hi
    · next hi =>
      rw [ih]
      constructor
      · rintro ⟨hj, hdest, hlast⟩
        refine ⟨Nat.lt_succ_of_lt hj, hdest, fun k hk hki => ?_⟩
        rcases Nat.lt_succ_iff_lt_or_eq.1 hki with hki | rfl
        · exact hlast k hk hki
        · exact hi
      · rintro ⟨hj, hdest, hlast⟩
        have hne : j ≠ i := fun he => hi (he ▸ hdest)
        exact ⟨by omega, hdest, fun k hk hki => hlast k hk (Nat.lt_succ_of_lt hki)⟩

theorem lastDefinition?_eq_none_iff {body : List Instruction} {text : String} {i : Nat} :
    lastDefinition? body text i = none ↔
      ∀ k < i, body[k]?.bind Instruction.dest? ≠ some text := by
  induction i with
  | zero => simp [lastDefinition?]
  | succ i ih =>
    rw [lastDefinition?]
    split
    · next hi => exact iff_of_false (by simp) fun h => h i (Nat.lt_succ_self i) hi
    · next hi =>
      rw [ih]
      refine ⟨fun h k hk => ?_, fun h k hk => h k (Nat.lt_succ_of_lt hk)⟩
      rcases Nat.lt_succ_iff_lt_or_eq.1 hk with hk | rfl
      · exact h k hk
      · exact hi

theorem lastDefinition?_length_eq_none_iff {done : List Instruction} (rest : List Instruction)
    {text : String} :
    lastDefinition? (done ++ rest) text done.length = none ↔
      text ∉ done.filterMap Instruction.dest? := by
  rw [lastDefinition?_eq_none_iff, List.mem_filterMap]
  constructor
  · rintro h ⟨i, hi, hdest⟩
    obtain ⟨k, hk⟩ := List.mem_iff_getElem?.1 hi
    have hlt : k < done.length := (List.getElem?_eq_some_iff.1 hk).1
    refine h k hlt ?_
    rw [List.getElem?_append_left hlt, hk]
    exact hdest
  · intro h k hk hdest
    rw [List.getElem?_append_left hk] at hdest
    obtain ⟨i, hi, hdest⟩ := Option.bind_eq_some_iff.1 hdest
    exact h ⟨i, List.mem_of_getElem? hi, hdest⟩

/-- The reads of a body in order, each with the place of its instruction. -/
def placedReads (body : List Instruction) : List (Nat × String) :=
  body.zipIdx.flatMap fun entry => entry.1.reads.map (entry.2, ·)

/-- How far a read is from the latest definition of what it reads, if there is one. -/
def readDistance? (body : List Instruction) (read : Nat × String) : Option Nat :=
  (lastDefinition? body read.2 read.1).map (read.1 - ·)

def Double.mean (ns : List Nat) : Double :=
  if ns = [] then .zero
  else Scalar.binary .div (Double.ofNat ns.sum) (Double.ofNat ns.length)

namespace Reads

/-- The counts of reads at the given distances. -/
structure Counts (r : Reads) (distances : List (Option Nat)) : Prop where
  hot : r.hot = distances.countP (·.any (· ≤ 2))
  warm : r.warm = distances.countP (·.any fun n => 3 ≤ n ∧ n ≤ 32)
  cold : r.cold = distances.countP (·.any (32 < ·))
  inputs : r.inputs = distances.count .none
  distance : r.distance = distances.reduceOption.sum

namespace Counts

variable {r : Reads} {distances : List (Option Nat)}

theorem nil : none.Counts [] :=
  ⟨rfl, rfl, rfl, rfl, rfl⟩

theorem add (h : r.Counts distances) (defined : Std.HashMap String Nat) (i : Nat)
    (operand : String) :
    (r.add defined i operand).Counts (distances ++ [defined[operand]?.map (i - ·)]) := by
  rw [Reads.add]
  cases defined[operand]? with
  | none =>
    constructor <;>
      simp [h.hot, h.warm, h.cold, h.inputs, h.distance, List.reduceOption_append]
  | some j =>
    dsimp only
    rw [far]
    split
    · next hn =>
      have hwarm : ¬ 3 ≤ i - j := by omega
      have hcold : ¬ 32 < i - j := by omega
      constructor <;> simp [h.hot, h.warm, h.cold, h.inputs, h.distance, hn, hwarm, hcold,
        List.reduceOption_append]
    · split
      · next hn hn' =>
        have hwarm : 3 ≤ i - j := by omega
        have hcold : ¬ 32 < i - j := by omega
        constructor <;> simp [h.hot, h.warm, h.cold, h.inputs, h.distance, hn, hn', hwarm, hcold,
          List.reduceOption_append]
      · next hn hn' =>
        have hcold : 32 < i - j := by omega
        constructor <;> simp [h.hot, h.warm, h.cold, h.inputs, h.distance, hn, hn', hcold,
          List.reduceOption_append]

theorem foldl_add (h : r.Counts distances) (defined : Std.HashMap String Nat) (i : Nat)
    (operands : List String) :
    (operands.foldl (Reads.add defined i) r).Counts
      (distances ++ operands.map fun operand => defined[operand]?.map (i - ·)) := by
  induction operands generalizing r distances with
  | nil => simpa using h
  | cons operand operands ih => simpa using ih (h.add defined i operand)

/-- The reads of the rest of a body are counted if the places are known at which the instructions so
far define their registers. -/
theorem run {body rest : List Instruction} (done : List Instruction) (hbody : body = done ++ rest)
    (h : r.Counts distances) {defined : Std.HashMap String Nat}
    (hd : ∀ text : String, defined[text]? = lastDefinition? body text done.length) :
    (Reads.run defined done.length r rest).Counts (distances ++
      ((rest.zipIdx done.length).flatMap fun entry => entry.1.reads.map (entry.2, ·)).map
        (readDistance? body)) := by
  induction rest generalizing done r distances defined with
  | nil => simpa [Reads.run] using h
  | cons instruction rest ih =>
    have hat : body[done.length]? = some instruction := by simp [hbody]
    have hreads := h.foldl_add defined done.length instruction.reads
    have hdefined : ∀ text : String,
        (instruction.dest?.elim defined (defined.insert · done.length))[text]? =
          lastDefinition? body text (done ++ [instruction]).length := by
      intro text
      rw [List.length_append, List.length_singleton, lastDefinition?, hat, Option.bind_some]
      cases hdest : instruction.dest? with
      | none => simp [hd]
      | some dest => simp [Std.HashMap.getElem?_insert, hd]
    have hrest := ih (done ++ [instruction]) (by simp [hbody]) hreads hdefined
    have hrun : Reads.run defined done.length r (instruction :: rest) =
        Reads.run (instruction.dest?.elim defined (defined.insert · done.length))
          (done.length + 1) (instruction.reads.foldl (Reads.add defined done.length) r) rest := by
      rw [Reads.run]
      cases instruction.dest? <;> rfl
    rw [hrun]
    simpa [readDistance?, hd, Function.comp_def] using hrest

theorem ofBody (body : List Instruction) :
    (Reads.ofBody body).Counts ((placedReads body).map (readDistance? body)) :=
  run [] rfl nil fun _ => by simp [lastDefinition?]

theorem measured_eq (h : r.Counts distances) : r.measured = distances.reduceOption.length := by
  rw [measured, h.hot, h.warm, h.cold]
  clear h
  induction distances with
  | nil => rfl
  | cons x distances ih =>
    cases x with
    | none => simpa using ih
    | some n =>
      simp only [List.countP_cons, List.reduceOption_cons_of_some, List.length_cons,
        Option.any_some, decide_eq_true_eq, ← ih]
      split <;> split <;> split <;> omega

theorem total (h : r.Counts distances) :
    r.hot + r.warm + r.cold + r.inputs = distances.length := by
  have hm := h.measured_eq
  rw [measured] at hm
  rw [hm, h.inputs]
  clear hm h
  induction distances with
  | nil => rfl
  | cons x distances ih =>
    cases x with
    | none => simp [← ih, Nat.add_assoc]
    | some n => simp [← ih, Nat.add_right_comm]

theorem meanDistance_eq (h : r.Counts distances) :
    r.meanDistance = Double.mean distances.reduceOption := by
  rw [meanDistance, Double.mean, h.measured_eq, h.distance]
  simp only [List.length_eq_zero_iff]

end Counts

end Reads

theorem map_snd_placedReads (body : List Instruction) :
    (placedReads body).map Prod.snd = body.flatMap Instruction.reads := by
  rw [placedReads, List.map_flatMap]
  conv_rhs => rw [← List.zipIdx_map_fst 0 body, List.flatMap_map]
  simp [Function.comp_def]

section Tally

variable {counts : List (String × Nat)} {key : String}

theorem sum_tally (counts : List (String × Nat)) (key : String) :
    ((tally counts key).map Prod.snd).sum = (counts.map Prod.snd).sum + 1 := by
  induction counts with
  | nil => rfl
  | cons entry counts ih =>
    rw [tally]
    split
    · simp only [List.map_cons, List.sum_cons]
      omega
    · split
      · simp only [List.map_cons, List.sum_cons]
        omega
      · simp only [List.map_cons, List.sum_cons, ih]
        omega

theorem mem_tally {entry : String × Nat} (h : entry ∈ tally counts key) :
    entry.1 = key ∨ entry.1 ∈ counts.map Prod.fst := by
  induction counts with
  | nil => exact Or.inl (by rw [List.mem_singleton.1 h])
  | cons first counts ih =>
    rw [tally] at h
    split at h
    · rcases List.mem_cons.1 h with rfl | h
      · exact Or.inr (by simp)
      · exact Or.inr (List.mem_map_of_mem (List.mem_cons_of_mem _ h))
    · split at h
      · rcases List.mem_cons.1 h with rfl | h
        · exact Or.inl rfl
        · exact Or.inr (List.mem_map_of_mem h)
      · rcases List.mem_cons.1 h with rfl | h
        · exact Or.inr (by simp)
        · exact (ih h).imp_right fun hm => List.mem_cons_of_mem _ hm

theorem rising_tally (key : String) (h : counts.Pairwise (·.1 < ·.1)) :
    (tally counts key).Pairwise (·.1 < ·.1) := by
  induction counts with
  | nil => exact List.pairwise_singleton _ _
  | cons first counts ih =>
    obtain ⟨hfirst, hcounts⟩ := List.pairwise_cons.1 h
    rw [tally]
    split
    · exact List.pairwise_cons.2 ⟨hfirst, hcounts⟩
    · next hne =>
      split
      · next hlt =>
        refine List.pairwise_cons.2 ⟨List.forall_mem_cons.2 ⟨hlt, fun entry hm => ?_⟩, h⟩
        exact lt_trans hlt (hfirst entry hm)
      · next hlt =>
        refine List.pairwise_cons.2 ⟨fun entry hm => ?_, ih hcounts⟩
        rcases mem_tally hm with he | hm
        · exact he ▸ lt_of_le_of_ne (not_lt.1 hlt) (Ne.symm hne)
        · obtain ⟨other, hother, he⟩ := List.mem_map.1 hm
          exact he ▸ hfirst other hother

theorem lookup_cons_getD (entry : String × Nat) (counts : List (String × Nat)) (name : String) :
    ((entry :: counts).lookup name).getD 0 =
      if name = entry.1 then entry.2 else (counts.lookup name).getD 0 := by
  rw [List.lookup_cons]
  split
  · next he => rw [if_pos (beq_iff_eq.1 he), Option.getD_some]
  · next he => rw [if_neg (ne_of_beq_false he)]

theorem lookup_tally (h : counts.Pairwise (·.1 < ·.1)) (name : String) :
    ((tally counts key).lookup name).getD 0 =
      (counts.lookup name).getD 0 + if name = key then 1 else 0 := by
  induction counts with
  | nil => simp [tally, lookup_cons_getD]
  | cons first counts ih =>
    obtain ⟨hfirst, hcounts⟩ := List.pairwise_cons.1 h
    rw [tally]
    split
    · next hk =>
      subst hk
      by_cases hn : name = first.1 <;> simp [lookup_cons_getD, hn]
    · next hne =>
      split
      · next hlt =>
        by_cases hn : name = key
        · subst hn
          have hnone : counts.lookup name = none := by
            rw [List.lookup_eq_none_iff]
            intro entry hm
            simpa using ne_of_lt (lt_trans hlt (hfirst entry hm))
          simp [lookup_cons_getD, hne, hnone]
        · simp [lookup_cons_getD, hn]
      · by_cases hn : name = first.1
        · simp [lookup_cons_getD, hn, Ne.symm hne]
        · simp [lookup_cons_getD, hn, ih hcounts]

/-- A table of some keys tells how often each of them occurs. -/
theorem foldl_tally (h : counts.Pairwise (·.1 < ·.1)) (keys : List String) :
    ((keys.foldl tally counts).map Prod.snd).sum = (counts.map Prod.snd).sum + keys.length ∧
    ∀ name, ((keys.foldl tally counts).lookup name).getD 0 =
      (counts.lookup name).getD 0 + keys.count name := by
  induction keys generalizing counts with
  | nil => simp
  | cons key keys ih =>
    obtain ⟨hsum, hcount⟩ := ih (rising_tally key h)
    refine ⟨?_, fun name => ?_⟩
    · rw [List.foldl_cons, hsum, sum_tally, List.length_cons]
      omega
    · rw [List.foldl_cons, hcount, lookup_tally h, List.count_cons]
      simp only [beq_iff_eq, eq_comm (a := name)]
      omega

end Tally

/-- What statistics say about a body: how many instructions it has and how often each mnemonic
occurs; how many reads it has, and how many of them at which distance; and the mean distance. -/
structure Statistics.Describes (s : Statistics) (body : List Instruction) : Prop where
  size : s.size = body.length
  sum_counts : (s.counts.map Prod.snd).sum = body.length
  count : ∀ mnemonic, s.count mnemonic = (body.map Instruction.mnemonic).count mnemonic
  total : s.reads.hot + s.reads.warm + s.reads.cold + s.reads.inputs =
    (body.flatMap Instruction.reads).length
  reads : s.reads.Counts ((placedReads body).map (readDistance? body))
  mean : s.reads.meanDistance =
    Double.mean ((placedReads body).map (readDistance? body)).reduceOption

theorem Program.statistics_describes (p : Program) : p.statistics.Describes p.body := by
  have hreads := Reads.Counts.ofBody p.body
  obtain ⟨hsum, hcount⟩ :=
    foldl_tally List.Pairwise.nil (p.body.map Instruction.mnemonic)
  refine ⟨rfl, ?_, fun mnemonic => ?_, ?_, hreads, hreads.meanDistance_eq⟩
  · rw [Program.statistics, hsum]
    simp
  · rw [Statistics.count, Program.statistics, hcount]
    simp
  · rw [← map_snd_placedReads, List.length_map]
    exact hreads.total.trans (List.length_map _)

variable {α : Type} [Scalar α]

def Label.isInput : Label α → Bool
  | .lit _ | .var _ => true
  | _ => false

namespace Dag

variable [ReadableText α] {d : Dag α} {root : NodeId}

/-- The instructions of some nodes define the value of one of them unless that is a literal or a
variable, which is no register of a result. -/
theorem valueText_mem_dests_iff (h : d.Lawful) {nodes : List NodeId} {id : NodeId}
    (hid : id ∈ nodes) (hlt : id < d.count)
    (hg : (d.label? id).any Label.isGradient = false) :
    d.valueText id ∈ (nodes.filterMap d.instruction?).filterMap Instruction.dest? ↔
      (d.label? id).any Label.isInput = false := by
  rw [dests_instructions]
  obtain ⟨node, hn⟩ := exists_node? hlt
  have hop : (d.instruction? id).isSome → (Register.result id).text ∈
      (d.operators nodes).map fun id => (Register.result id).text :=
    fun hi => List.mem_map_of_mem (List.mem_filter.2 ⟨hid, hi⟩)
  have hleaf : ∀ r : Register, (∀ id, r ≠ .result id) →
      r.text ∉ (d.operators nodes).map fun id => (Register.result id).text := by
    intro r hr hm
    obtain ⟨c, -, hc⟩ := List.mem_map.1 hm
    exact hr c (Register.text_injective hc).symm
  have hsome : (d.instruction? id).isSome ↔ _ := isSome_instruction?_iff h
  rw [label?_of_node? hn] at hg hsome ⊢
  rw [valueText, label?_of_node? hn]
  cases h.admits hn with
  | @lit value =>
    refine iff_of_false (fun hm => ?_) (by simp [Label.isInput])
    obtain ⟨c, -, hc⟩ := List.mem_map.1 hm
    exact Machine.constant_ne_text value _ hc.symm
  | var name => exact iff_of_false (hleaf _ (by simp)) (by simp [Label.isInput])
  | unary op => exact iff_of_true (hop (hsome.2 rfl)) rfl
  | binary op => exact iff_of_true (hop (hsome.2 rfl)) rfl
  | gradient => cases hg

/-- The reads without a definition before them are those of literals and variables. -/
theorem count_inputs (h : d.Lawful) {nodes todo : List NodeId} (done : List NodeId)
    (hnodes : nodes = done ++ todo)
    (hlt : ∀ id ∈ nodes, id < d.count)
    (hg : ∀ id ∈ nodes, ∀ x ∈ d.operands id, (d.label? x).any Label.isGradient = false)
    (hsettled : ∀ done id after, nodes = done ++ id :: after → ∀ x ∈ d.operands id, x ∈ done) :
    ((((todo.filterMap d.instruction?).zipIdx (done.filterMap d.instruction?).length).flatMap
      fun entry => entry.1.reads.map (entry.2, ·)).map
        (readDistance? (nodes.filterMap d.instruction?))).count none =
      ((d.operators todo).flatMap d.operands).countP fun x => (d.label? x).any Label.isInput := by
  induction todo generalizing done with
  | nil => rfl
  | cons id todo ih =>
    have hrest := ih (done ++ [id]) (by simp [hnodes])
    rw [operators] at hrest ⊢
    rw [List.filterMap_append] at hrest
    cases hi : d.instruction? id with
    | none =>
      rw [List.filterMap_cons_none hi, List.filter_cons_of_neg (by simp [hi])]
      simpa [hi] using hrest
    | some i =>
      have hid : id ∈ nodes := by simp [hnodes]
      have hbody : nodes.filterMap d.instruction? =
          done.filterMap d.instruction? ++ i :: todo.filterMap d.instruction? := by
        rw [hnodes, List.filterMap_append, List.filterMap_cons_some hi]
      have hreads : (i.reads.map fun text =>
            readDistance? (nodes.filterMap d.instruction?)
              ((done.filterMap d.instruction?).length, text)).count none =
          (d.operands id).countP fun x => (d.label? x).any Label.isInput := by
        rw [(instruction?_spec hi).2.1, List.map_map, List.count, List.countP_map]
        refine List.countP_congr fun x hx => ?_
        have hdone := hsettled done id todo hnodes x hx
        have hiff := valueText_mem_dests_iff h hdone
          (hlt x (hnodes ▸ List.mem_append_left _ hdone)) (hg id hid x hx)
        have hnone := not_congr hiff
        rw [← lastDefinition?_length_eq_none_iff (i :: todo.filterMap d.instruction?),
          ← hbody, Bool.not_eq_false] at hnone
        simpa [readDistance?] using hnone
      rw [List.filterMap_cons_some hi, List.filter_cons_of_pos (by simp [hi]),
        List.flatMap_cons, List.countP_append, ← hreads, ← hrest, List.zipIdx_cons,
        List.flatMap_cons, List.map_append, List.count_append, List.map_map,
        List.length_append, List.filterMap_cons_some hi]
      rfl

/-- The statistics of every function, whatever its body, are exact: an instruction or a read is
counted once, a read by its distance to the latest definition before it, and as an input if there is
none. In the body of a function of a node there is an instruction for each operator under the node,
and the inputs are the operands of these that are literals and variables. -/
theorem Reachable.statistics_exact (h : d.Reachable) (root : NodeId) (options : CodeOptions) :
    (∀ p : Program, p.statistics.Describes p.body) ∧
    (∀ body text i,
      (∀ j, lastDefinition? body text i = some j ↔
        j < i ∧ body[j]?.bind Instruction.dest? = some text ∧
          ∀ k, j < k → k < i → body[k]?.bind Instruction.dest? ≠ some text) ∧
      (lastDefinition? body text i = none ↔
        ∀ k < i, body[k]?.bind Instruction.dest? ≠ some text)) ∧
    ∀ p, d.program root options = .ok p → ∃ nodes : List NodeId, nodes.Nodup ∧
      (∀ id, id ∈ nodes ↔ d.Reaches root id ∧ (d.label? id).any Label.isOperator) ∧
      p.statistics.size = nodes.length ∧
      p.statistics.reads.inputs =
        (nodes.flatMap d.operands).countP fun x => (d.label? x).any Label.isInput := by
  have hd := h.lawful
  refine ⟨Program.statistics_describes, fun body text i =>
    ⟨fun j => lastDefinition?_eq_some_iff, lastDefinition?_eq_none_iff⟩, fun p hp => ?_⟩
  have hroot := (Lowering.program_eq_ok hp).1
  have hcov := walk_covers hd.wellFormed hroot
  have hbody := Lowering.body_eq hd hp
  have hdescribes := p.statistics_describes
  refine ⟨d.operators (d.walk root).order.toList, hcov.nodup.filter _, fun id => ?_, ?_, ?_⟩
  · rw [operators, List.mem_filter, hcov.mem_order_iff, isSome_instruction?_iff hd]
  · rw [hdescribes.size, hbody, operators, List.length_filterMap_eq_countP,
      List.countP_eq_length_filter]
  · rw [hdescribes.reads.inputs, hbody]
    refine count_inputs hd [] (List.nil_append _).symm
      (hcov.order_lt hd.wellFormed hroot) (fun id hid x hx => ?_) hcov.settled
    have hr := (hcov.mem_order_iff id).1 hid
    have hlt := hd.wellFormed.operands_lt id x hx
    exact Lowering.not_gradient_of_program hd hp (hr.tail hx)
      (Nat.ne_of_lt (Nat.lt_of_lt_of_le hlt (hr.le hd.wellFormed)))

def sineOfExp : Dag Double :=
  ((Command.build (.unary .sin (.unary .exp (.var "x")))).run empty).2

theorem reachable_sineOfExp : sineOfExp.Reachable := by
  have ho : ((Command.build (.unary .sin (.unary .exp (.var "x")))).run (empty : Dag Double)).1 =
      some (.node 2) := by cbv
  exact Reachable.empty.next ho

/-- Of the two instructions for the sine of an exponential one reads the variable. A register that
is negated in place twice is an input the first time only. -/
theorem sineOfExp_statistics_exact :
    (∃ p, sineOfExp.program 2 {} = .ok p ∧ p.statistics.size = 2 ∧
      p.statistics.reads.inputs = 1) ∧
    (∀ p : Program, p.body = [.neg "%a" "%a", .neg "%a" "%a"] →
      p.statistics.reads.hot = 1 ∧ p.statistics.reads.inputs = 1) := by
  obtain ⟨hall, -, hprogram⟩ := reachable_sineOfExp.statistics_exact 2 {}
  constructor
  · have hsome : (sineOfExp.program 2 {}).toOption.isSome = true := by cbv
    cases hp : sineOfExp.program 2 {} with
    | error fault => simp [hp, Except.toOption] at hsome
    | ok p =>
      have hroot : (2 : NodeId) < sineOfExp.count := by cbv
      have horder : (sineOfExp.walk 2).order.toList = [0, 1, 2] := by cbv
      have hlabels : [0, 1, 2].map sineOfExp.label? =
          [some (.var "x"), some (.unary .exp), some (.unary .sin)] := by cbv
      have hoperands : [1, 2].map sineOfExp.operands = [[0], [1]] := by cbv
      simp only [List.map_cons, List.map_nil, List.cons.injEq] at hlabels hoperands
      have hreaches := (walk_covers reachable_sineOfExp.lawful.wellFormed hroot).mem_order_iff
      obtain ⟨nodes, hnodup, hmem, hsize, hinputs⟩ := hprogram p hp
      have hnodes : nodes.Perm [1, 2] := by
        refine (List.perm_ext_iff_of_nodup hnodup (by decide)).2 fun id => ?_
        rw [hmem, ← hreaches, horder]
        constructor
        · rintro ⟨hid, hop⟩
          simp only [List.mem_cons, List.not_mem_nil, or_false] at hid
          rcases hid with rfl | rfl | rfl
          · rw [hlabels.1] at hop
            cases hop
          · simp
          · simp
        · intro hid
          simp only [List.mem_cons, List.not_mem_nil, or_false] at hid
          rcases hid with rfl | rfl
          · exact ⟨by simp, by rw [hlabels.2.1]; rfl⟩
          · exact ⟨by simp, by rw [hlabels.2.2.1]; rfl⟩
      refine ⟨p, rfl, hsize.trans hnodes.length_eq, hinputs.trans ?_⟩
      rw [(hnodes.flatMap_right sineOfExp.operands).countP_eq]
      simp [hlabels, hoperands, Label.isInput]
  · intro p hp
    have hreads := (hall p).reads
    rw [hp] at hreads
    exact ⟨hreads.hot.trans (by decide), hreads.inputs.trans (by decide)⟩

end Dag

end SharedExpr
