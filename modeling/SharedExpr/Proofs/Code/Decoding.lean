import Mathlib
import SharedExpr.Proofs.Code.Body
import SharedExpr.Proofs.Code.Reading
import SharedExpr.Proofs.Code.Shape
import SharedExpr.Proofs.Code.Words
import SharedExpr.Proofs.Double.Constant

/-! The text of a function determines the function. -/
namespace SharedExpr

variable {α : Type} [Scalar α] [ReadableText α] {d : Dag α} {root : NodeId}

namespace Lowering

open Instruction (Readable)
open Program (loads computes)

theorem map_valueText_of_lowerList {vars done : List NodeId} {s s' : Lowering} (h : d.Lawful)
    (hvars : ∀ v ∈ vars, (d.name? v).isSome) {ids : List NodeId} (hids : ∀ id ∈ ids, id < d.count)
    (hclosed : d.Closed done) (hf : Follows d vars s done) {ts : List String}
    (hn : lowerList d ids s = (.ok ts, s')) : ts = ids.map d.valueText := by
  have hf' := Follows.lowerList h hvars hids hclosed hf hn
  have htexts : List.Forall₂ Eq ts (ids.map d.valueText) :=
    List.forall₂_map_right_iff.2 ((lowerList_keeps hn).2.flip.imp fun t id => hf'.text id t)
  rwa [List.forall₂_eq_eq_eq] at htexts

theorem program_eq_complete {options : CodeOptions} {p : Program} (h : d.Lawful)
    (hp : d.program root options = .ok p) :
    ∃ s, p = complete d root options ((d.resultNodes root).map d.valueText) s := by
  obtain ⟨hroot, ts, s, hl, rfl⟩ := program_eq_ok hp
  have hvars : ∀ v ∈ d.freeVars root, (d.name? v).isSome := fun v hv =>
    ((Dag.walk_covers h.wellFormed hroot).mem_freeVars_iff.1 hv).2
  rw [map_valueText_of_lowerList h hvars (Dag.resultNodes_lt h hroot) (by simp [Dag.Closed])
    (follows_bindAll h hroot) hl]
  exact ⟨s, rfl⟩

theorem isWord_valueText (hc : ∀ value : α, IsWord (ScalarText.constant value)) (id : NodeId) :
    IsWord (d.valueText id) := by
  rw [Dag.valueText]
  split
  · exact hc _
  · exact (Register.isRegister_text _).word
  · exact (Register.isRegister_text _).word

theorem readable_params (convention : Convention) (names : List String) :
    ∃ ps : List (String × String), params convention names = ps.map (fun q => q.1 ++ " " ++ q.2) ∧
      ∀ q ∈ ps, IsWord q.1 ∧ IsWord q.2 := by
  cases convention with
  | scalar =>
    refine ⟨names.map fun name => ("double", (Register.value name).text), ?_, ?_⟩
    · simp [params, Function.comp_def]
    · intro q hq
      obtain ⟨name, -, rfl⟩ := List.mem_map.1 hq
      exact ⟨(by decide : IsWord "double"), (Register.isRegister_text _).word⟩
  | buffer =>
    exact ⟨[("ptr", Register.input.text), ("ptr", Register.output.text)], rfl, by decide⟩

theorem readable_prologue (convention : Convention) (names : List String) :
    ∀ i ∈ prologue convention names, Readable i ∧ loads i = true := by
  cases convention with
  | scalar => exact nofun
  | buffer =>
    intro i hi
    obtain ⟨⟨name, slot⟩, -, hi⟩ := List.mem_flatMap.1 hi
    simp only [List.mem_cons, List.not_mem_nil, or_false] at hi
    rcases hi with rfl | rfl
    · exact ⟨.elementPtr (Register.isRegister_text _) (Register.isRegister_text .input).word slot,
        by simp [loads]⟩
    · exact ⟨.load (Register.isRegister_text _) (Register.isRegister_text _).word, rfl⟩

theorem readable_instruction? (hc : ∀ value : α, IsWord (ScalarText.constant value)) {id : NodeId}
    {i : Instruction} (hi : d.instruction? id = some i) : Readable i ∧ computes i = true := by
  have hd := Register.isRegister_text (.result id)
  rw [Dag.instruction?] at hi
  split at hi
  · next op x _ =>
    cases hi
    have hx := isWord_valueText (d := d) hc x
    cases op with
    | neg => exact ⟨.neg hd hx, rfl⟩
    | exp | log | sin | cos =>
      exact ⟨.call hd (by decide) (List.forall_mem_singleton.2 hx), rfl⟩
  · next op x y _ =>
    cases hi
    have hx := isWord_valueText (d := d) hc x
    have hy := isWord_valueText (d := d) hc y
    cases op with
    | add | sub | mul | div => exact ⟨.arith hd (by decide) hx hy, rfl⟩
    | pow =>
      exact ⟨.call hd (by decide) (List.forall_mem_cons.2 ⟨hx, List.forall_mem_singleton.2 hy⟩),
        rfl⟩
  · cases hi

/-- An aggregate is built up from its first value, and returned with all of them. -/
theorem readable_aggregate {width : Nat} (hw : 0 < width) {values : List (String × Nat)}
    (hv : ∀ v ∈ values, IsWord v.1) {last : Option String}
    (hl : ∀ start, last = some start → IsRegister start) (hne : values ≠ [] ∨ last.isSome) :
    ∀ i ∈ aggregate width values last, Readable i ∧ loads i = false ∧ computes i = false := by
  induction values generalizing last with
  | nil =>
    obtain ⟨start, rfl⟩ := Option.isSome_iff_exists.1 (hne.resolve_left fun h => h rfl)
    have ht : (ReturnType.aggregate width).Inhabited := by
      simpa [ReturnType.Inhabited] using Nat.ne_of_gt hw
    exact List.forall_mem_singleton.2 ⟨.ret (by simp) ht (hl start rfl).word, rfl, rfl⟩
  | cons v values ih =>
    obtain ⟨hv, hvs⟩ := List.forall_mem_cons.1 hv
    have hd := Register.isRegister_text (.aggregate v.2)
    refine List.forall_mem_cons.2 ⟨⟨.insertValue hd hw hl hv v.2, rfl, rfl⟩, ?_⟩
    exact ih hvs (fun start hs => Option.some.inj hs ▸ hd) (.inr rfl)

theorem readable_epilogue (convention : Convention) {values : List String}
    (hv : ∀ v ∈ values, IsWord v) (hne : values ≠ []) (isGradient : Bool) :
    (epilogue convention values isGradient).1.Inhabited ∧
    ∀ i ∈ (epilogue convention values isGradient).2,
      Readable i ∧ loads i = false ∧ computes i = false := by
  cases convention with
  | buffer =>
    refine ⟨by simp [epilogue, ReturnType.Inhabited], ?_⟩
    refine List.forall_mem_append.2 ⟨fun i hi => ?_, List.forall_mem_singleton.2 ⟨.leave, rfl, rfl⟩⟩
    obtain ⟨⟨value, slot⟩, hm, hi⟩ := List.mem_flatMap.1 hi
    have hvalue := hv value (List.mem_of_getElem? (List.mem_zipIdx_iff_getElem?.1 hm))
    have hslot := Register.isRegister_text (.slot slot)
    simp only [List.mem_cons, List.not_mem_nil, or_false] at hi
    rcases hi with rfl | rfl
    · have hbase : Register.output.text ≠ Register.input.text := by decide
      exact ⟨.elementPtr hslot (Register.isRegister_text .output).word slot,
        decide_eq_false hbase, rfl⟩
    · exact ⟨.store hvalue hslot.word, rfl, rfl⟩
  | scalar =>
    have hlen : 0 < values.length := List.length_pos_iff.2 hne
    cases isGradient with
    | true =>
      refine ⟨by simpa [epilogue, ReturnType.Inhabited] using hne, ?_⟩
      refine readable_aggregate hlen (fun v hm => ?_) (by simp) (.inl (by simpa using hne))
      exact hv v.1 (List.mem_of_getElem? (List.mem_zipIdx_iff_getElem?.1 hm))
    | false =>
      obtain ⟨value, rest, rfl⟩ := List.exists_cons_of_ne_nil hne
      have hdouble : ReturnType.double.Inhabited := by simp [ReturnType.Inhabited]
      have hret : Readable (.ret .double (some value)) :=
        .ret (by simp) hdouble (hv value List.mem_cons_self)
      exact ⟨hdouble, List.forall_mem_singleton.2 ⟨hret, rfl, rfl⟩⟩

omit [ReadableText α] in
theorem resultNodes_ne_nil (d : Dag α) (root : NodeId) : d.resultNodes root ≠ [] := by
  rw [Dag.resultNodes]
  split <;> simp

theorem readable_program (hc : ∀ value : α, IsWord (ScalarText.constant value)) (h : d.Lawful)
    {options : CodeOptions} (hname : ∀ c ∈ options.functionName.toList, Register.isBare c = true)
    {p : Program} (hp : d.program root options = .ok p) : p.Readable := by
  have hbody := body_eq h hp
  obtain ⟨s, rfl⟩ := program_eq_complete h hp
  have hvalues : ∀ v ∈ (d.resultNodes root).map d.valueText, IsWord v := by
    intro v hv
    obtain ⟨x, -, rfl⟩ := List.mem_map.1 hv
    exact isWord_valueText hc x
  obtain ⟨hreturns, hepilogue⟩ := readable_epilogue options.convention hvalues
    (by simpa using resultNodes_ne_nil d root) (d.bundle? root).isSome
  refine ⟨hname, hreturns, readable_params _ _, readable_prologue _ _, fun i hi => ?_, hepilogue⟩
  rw [hbody] at hi
  obtain ⟨id, -, hi⟩ := List.mem_filterMap.1 hi
  exact readable_instruction? hc hi

end Lowering

namespace Dag

/-- The product of a variable with a comma and a line end in its name, and one named by a quote. -/
def quotedProduct : Dag Double :=
  ((Command.build (.binary .mul (.var "a,\n  b") (.var "\""))).run empty).2

theorem reachable_quotedProduct : quotedProduct.Reachable := by
  have ho : ((Command.build (.binary .mul (.var "a,\n  b") (.var "\""))).run
      (empty : Dag Double)).1 = some (.node 2) := by cbv
  exact Reachable.empty.next ho

theorem exists_quotedProduct_program (options : CodeOptions) :
    ∃ p, quotedProduct.program 2 options = .ok p ∧ p.name = options.functionName := by
  have hlawful := reachable_quotedProduct.lawful
  have hcount : quotedProduct.count = 3 := by cbv
  have hlabels : ∀ id < 3, (quotedProduct.label? id).any Label.isGradient = false := by
    intro id hid
    interval_cases id <;> cbv
  obtain ⟨p, hp⟩ := (Lowering.exists_program_iff hlawful).2 ⟨by rw [hcount]; decide,
    fun id hr _ => hlabels id (Nat.lt_succ_of_le (hr.le hlawful.wellFormed))⟩
  obtain ⟨-, ts, s, -, rfl⟩ := Lowering.program_eq_ok hp
  exact ⟨_, hp, rfl⟩

/-- A function of a graph of doubles, with a plain name, is read back from its text; so two such
functions, of any graphs, have the same text only if they are the same. -/
theorem Reachable.program_text_iff {d d' : Dag Double} (h : d.Reachable) (h' : d'.Reachable)
    {root root' : NodeId} {options options' : CodeOptions}
    (hname : ∀ c ∈ options.functionName.toList, Register.isBare c = true)
    (hname' : ∀ c ∈ options'.functionName.toList, Register.isBare c = true) {p p' : Program}
    (hp : d.program root options = .ok p) (hp' : d'.program root' options' = .ok p') :
    (p.text = p'.text ↔ p = p') ∧
      Program.read? p.text = some p ∧ Program.read? p'.text = some p' := by
  have hread := Program.read?_text
    (Lowering.readable_program Double.isWord_constant h.lawful hname hp)
  have hread' := Program.read?_text
    (Lowering.readable_program Double.isWord_constant h'.lawful hname' hp')
  refine ⟨⟨fun htext => ?_, congrArg Program.text⟩, hread, hread'⟩
  exact Option.some.inj (hread.symm.trans (htext ▸ hread'))

/-- The function that returns the product and the one that stores it are told from their texts. -/
theorem quotedProduct_program_text_iff :
    ∃ p p' : Program, quotedProduct.program 2 {} = .ok p ∧
      quotedProduct.program 2 ⟨.buffer, "f.$1"⟩ = .ok p' ∧ p.text ≠ p'.text ∧
      Program.read? p.text = some p ∧ Program.read? p'.text = some p' := by
  obtain ⟨p, hp, hname⟩ := exists_quotedProduct_program {}
  obtain ⟨p', hp', hname'⟩ := exists_quotedProduct_program ⟨.buffer, "f.$1"⟩
  obtain ⟨htext, hread, hread'⟩ := reachable_quotedProduct.program_text_iff
    reachable_quotedProduct (List.all_eq_true.1 (by decide)) (List.all_eq_true.1 (by decide)) hp hp'
  refine ⟨p, p', hp, hp', fun h => ?_, hread, hread'⟩
  have hnames : "kernel" = "f.$1" :=
    hname.symm.trans ((congrArg Program.name (htext.1 h)).trans hname')
  exact absurd hnames (by decide)

end Dag

end SharedExpr
