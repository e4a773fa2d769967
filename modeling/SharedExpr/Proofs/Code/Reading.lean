import SharedExpr.Proofs.Code.Line

/-! A function is read back from its text if its operands are words. -/
namespace SharedExpr

theorem takeWhile_dropWhile_append {β : Type} {p : β → Bool} {xs ys : List β}
    (hx : ∀ x ∈ xs, p x = true) (hy : ∀ y ∈ ys, p y = false) :
    (xs ++ ys).takeWhile p = xs ∧ (xs ++ ys).dropWhile p = ys := by
  rw [List.takeWhile_append_of_pos hx, List.dropWhile_append_of_pos hx]
  cases ys with
  | nil => simp
  | cons y ys => simp [hy y List.mem_cons_self]

namespace Program

open Instruction

/-- What can be told from its text: the name is plain, operands are words, and each part of the
instructions is of its own kind. -/
structure Readable (p : Program) : Prop where
  name : ∀ c ∈ p.name.toList, Register.isBare c = true
  returns : p.returns.Inhabited
  params : ∃ ps : List (String × String), p.params = ps.map (fun q => q.1 ++ " " ++ q.2) ∧
    ∀ q ∈ ps, IsWord q.1 ∧ IsWord q.2
  prologue : ∀ i ∈ p.prologue, i.Readable ∧ loads i = true
  body : ∀ i ∈ p.body, i.Readable ∧ computes i = true
  epilogue : ∀ i ∈ p.epilogue, i.Readable ∧ loads i = false ∧ computes i = false

theorem loads_of_computes {i : Instruction} (hi : computes i = true) : loads i = false := by
  cases i with
  | arith | neg | call => rfl
  | elementPtr | load | store | insertValue | ret => cases hi

theorem splitLines_join {lines : List String} (hl : ∀ l ∈ lines, IsField isLineEnd l.toList) :
    splitLines (String.join (lines.map (· ++ "\n"))).toList = lines.map String.toList ++ [[]] := by
  induction lines with
  | nil => rfl
  | cons l lines ih =>
    obtain ⟨hl, hlines⟩ := List.forall_mem_cons.1 hl
    have hjoin : (String.join ((l :: lines).map (· ++ "\n"))).toList =
        l.toList ++ '\n' :: (String.join (lines.map (· ++ "\n"))).toList := by
      simp
    rw [hjoin, splitLines, hl.fields_cons rfl]
    exact congrArg (l.toList :: ·) (ih hlines)

def heading (p : Program) : String :=
  let params := ", ".intercalate p.params
  s!"define {p.returns.text} @{p.name}({params}) \x7b"

theorem isWord_name {p : Program} (hp : p.Readable) : IsWord ("@" ++ p.name) := by
  rw [IsWord, String.toList_append]
  exact IsField.append (by decide) (isField_of_class (p := Register.isBare) rfl hp.name)

theorem inLine_heading {p : Program} (hp : p.Readable) : IsField isLineEnd p.heading.toList := by
  obtain ⟨ps, hparams, hps⟩ := hp.params
  have hlist : IsField isLineEnd (", ".intercalate p.params).toList := by
    rw [hparams]
    exact inLine_typed hps
  have hheading : p.heading.toList = "define ".toList ++ (p.returns.text.toList ++ (" ".toList ++
      (("@" ++ p.name).toList ++ ("(".toList ++ ((", ".intercalate p.params).toList ++
        ") \x7b".toList))))) := by
    simp [heading, toString]
  rw [hheading]
  exact .append (by decide) <| (ReturnType.inLine_text _).append <| .append (by decide) <|
    (isWord_name hp).inLine.append <| .append (by decide) <| hlist.append (by decide)

theorem splitWords_heading {p : Program} (hp : p.Readable) :
    ∃ ps : List (String × String), p.params = ps.map (fun q => q.1 ++ " " ++ q.2) ∧
      splitWords p.heading.toList = "define" :: (p.returns.words ++
        ("@" ++ p.name) :: (typedWords ps ++ ["\x7b"])) := by
  obtain ⟨ps, hparams, hps⟩ := hp.params
  refine ⟨ps, hparams, ?_⟩
  have hheading : p.heading.toList = "define".toList ++ ' ' :: (p.returns.text.toList ++ ' ' ::
      (("@" ++ p.name).toList ++ '(' ::
        ((", ".intercalate (ps.map fun q => q.1 ++ " " ++ q.2)).toList ++
          ')' :: [' ', '\x7b']))) := by
    simp [heading, toString, hparams]
  have hdefine : IsWord "define" := by decide
  have hlist : fields isWordEnd false
      ((", ".intercalate (ps.map fun q => q.1 ++ " " ++ q.2)).toList ++ ')' :: [' ', '\x7b']) =
        (typedWords ps).map String.toList ++ [['\x7b']] := fields_typed hps rfl
  rw [splitWords, hheading, hdefine.fields_cons rfl, ReturnType.fields_text hp.returns,
    (isWord_name hp).fields_cons rfl, hlist]
  simp only [List.map_cons, List.map_append, List.map_nil, map_ofList_toList, String.ofList_toList]

theorem readable_instructions {p : Program} (hp : p.Readable) :
    ∀ i ∈ p.instructions, i.Readable := by
  simp only [instructions, List.forall_mem_append]
  exact ⟨⟨fun i hi => (hp.prologue i hi).1, fun i hi => (hp.body i hi).1⟩,
    fun i hi => (hp.epilogue i hi).1⟩

theorem mapM_readInstruction? {is : List Instruction} (hi : ∀ i ∈ is, i.Readable) :
    (is.map line).mapM (readInstruction? ∘ splitWords) = some is := by
  induction is with
  | nil => rfl
  | cons i is ih =>
    obtain ⟨hi, his⟩ := List.forall_mem_cons.1 hi
    rw [List.map_cons, List.mapM_cons, ih his, Function.comp, splitWords_line hi,
      readInstruction?_words hi]
    rfl

theorem splitLines_text {p : Program} (hp : p.Readable) :
    splitLines p.text.toList =
      (intrinsics.map fun f => (declaration f.1 f.2).toList) ++ [] :: p.heading.toList ::
        "entry:".toList :: (p.instructions.map line ++ ["\x7d".toList, []]) := by
  have hlines : p.lines = (intrinsics.map fun f => declaration f.1 f.2) ++ "" :: p.heading ::
      "entry:" :: (p.instructions.map (fun i => "  " ++ i.text) ++ ["\x7d"]) := by
    simp [lines, heading]
  have hdeclarations : ∀ l ∈ intrinsics.map fun f => declaration f.1 f.2,
      IsField isLineEnd l.toList := by decide
  have hinstructions : ∀ l ∈ p.instructions.map (fun i => "  " ++ i.text),
      IsField isLineEnd l.toList := by
    intro l hl
    obtain ⟨i, hi, rfl⟩ := List.mem_map.1 hl
    exact inLine_line (readable_instructions hp i hi)
  rw [text, splitLines_join, hlines]
  · simp [line, Function.comp_def]
  · rw [hlines]
    simp only [List.forall_mem_append, List.forall_mem_cons]
    exact ⟨hdeclarations, by decide, inLine_heading hp, by decide, hinstructions, by decide,
      List.forall_mem_nil _⟩

/-- A function is read back from its text. -/
theorem read?_text {p : Program} (hp : p.Readable) : read? p.text = some p := by
  obtain ⟨ps, hparams, hheading⟩ := splitWords_heading hp
  have hdrop : (splitLines p.text.toList).drop (intrinsics.length + 1) = p.heading.toList ::
      "entry:".toList :: (p.instructions.map line ++ ["\x7d".toList, []]) := by
    rw [splitLines_text hp]
    rfl
  have hbody : (p.instructions.map line ++ ["\x7d".toList, []]).take
      ((p.instructions.map line ++ ["\x7d".toList, []]).length - 2) = p.instructions.map line := by
    simp
  have hother : ∀ i ∈ p.body ++ p.epilogue, loads i = false := by
    rw [List.forall_mem_append]
    exact ⟨fun i hi => loads_of_computes (hp.body i hi).2, fun i hi => (hp.epilogue i hi).2.1⟩
  obtain ⟨hprologue, hrest⟩ := takeWhile_dropWhile_append (fun i hi => (hp.prologue i hi).2) hother
  obtain ⟨hcompute, hexit⟩ := takeWhile_dropWhile_append (fun i hi => (hp.body i hi).2)
    fun i hi => (hp.epilogue i hi).2.2
  have hall : p.instructions = p.prologue ++ (p.body ++ p.epilogue) := List.append_assoc _ _ _
  have htyped : readTyped (typedWords ps ++ ["\x7b"]) = ps := readTyped_typedWords ps (.inr rfl)
  rw [read?, hdrop]
  simp only [hbody, hheading, List.drop_succ_cons, List.drop_zero, readType?_words, List.head?_cons,
    Option.map_some, htyped, mapM_readInstruction? (readable_instructions hp), Option.bind_eq_bind,
    Option.bind_some]
  rw [hall, hprologue, hrest, hcompute, hexit, ← hparams]
  simp

end Program

end SharedExpr
