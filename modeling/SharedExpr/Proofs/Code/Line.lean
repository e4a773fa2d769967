import SharedExpr.Proofs.Code.Fields

/-! The words of a line of code, from which its instruction is read back. -/
namespace SharedExpr

/-- A text that is one word of a line. -/
def IsWord (text : String) : Prop :=
  IsField isWordEnd text.toList

instance (text : String) : Decidable (IsWord text) :=
  inferInstanceAs (Decidable (IsField isWordEnd text.toList))

/-- A word that is no keyword, as it begins with a percent sign. -/
structure IsRegister (text : String) : Prop where
  word : IsWord text
  head : text.toList.head? = some '%'

theorem IsWord.fields_cons {w : String} (hw : IsWord w) {c : Char} (hc : isWordEnd c = true)
    (rest : List Char) :
    fields isWordEnd false (w.toList ++ c :: rest) = w.toList :: fields isWordEnd false rest :=
  IsField.fields_cons hw hc rest

theorem IsWord.fields_eq {w : String} (hw : IsWord w) :
    fields isWordEnd false w.toList = [w.toList] :=
  IsField.fields_eq hw

theorem IsWord.inLine {w : String} (hw : IsWord w) : IsField isLineEnd w.toList :=
  Leads.mono (fun c hc => by simp [isWordEnd, hc]) hw

theorem inLine_cons_iff {c : Char} (hc : c ≠ '\n') (hq : c ≠ '"') {cs : List Char} :
    IsField isLineEnd (c :: cs) ↔ IsField isLineEnd cs :=
  IsField.append_iff (a := [c]) <| .of_forall <|
    List.forall_mem_singleton.2 ⟨beq_false_of_ne hc, hq⟩

theorem fields_break {c : Char} (hc : isWordEnd c = true) (rest : List Char) :
    fields isWordEnd false (c :: rest) = [] :: fields isWordEnd false rest :=
  IsField.fields_cons (w := []) rfl hc rest

theorem map_ofList_toList (ws : List String) : (ws.map String.toList).map String.ofList = ws := by
  simp [Function.comp_def]

theorem isField_of_class {p : Char → Bool} (hp : [' ', ',', '(', ')', '\n', '"'].any p = false)
    {w : List Char} (hw : ∀ c ∈ w, p c = true) : IsField isWordEnd w := by
  refine IsField.of_forall fun c hc => ?_
  have hne : ∀ e ∈ [' ', ',', '(', ')', '\n', '"'], c ≠ e := by
    rintro e he rfl
    exact List.any_eq_false.1 hp c he (hw c hc)
  simp only [List.mem_cons, List.not_mem_nil, or_false, forall_eq_or_imp, forall_eq] at hne
  simpa [isWordEnd, isLineEnd, and_assoc] using hne

theorem isField_digits (n : Nat) : IsField isWordEnd (Nat.toDigits 10 n) :=
  isField_of_class (p := Char.isDigit) rfl fun _ hc =>
    Nat.isDigit_of_mem_toDigits (by decide) (by decide) hc

theorem IsRegister.ne {w : String} (hw : IsRegister w) {keyword : String}
    (hk : keyword.toList.head? ≠ some '%') : w ≠ keyword := by
  rintro rfl
  exact hk hw.head

namespace ReturnType

def memberWords : Nat → List String
  | 0 => []
  | 1 => ["double"]
  | n + 2 => "double" :: "" :: memberWords (n + 1)

def words : ReturnType → List String
  | void => ["void"]
  | double => ["double"]
  | aggregate width => "\x7b" :: memberWords width ++ ["\x7d"]

/-- A type that can be told from its text: an aggregate has members. -/
def Inhabited (type : ReturnType) : Prop :=
  type ≠ aggregate 0

theorem fields_members (n : Nat) (rest : List Char) :
    fields isWordEnd false
        ((", ".intercalate (.replicate (n + 1) "double")).toList ++ ' ' :: rest) =
      (memberWords (n + 1)).map String.toList ++ fields isWordEnd false rest := by
  have hdouble : IsWord "double" := by decide
  induction n with
  | zero => simp [memberWords, fields, isWordEnd, isLineEnd]
  | succ n ih =>
    have hi : (", ".intercalate (.replicate (n + 2) "double")).toList =
        "double".toList ++ ',' :: ' ' ::
          (", ".intercalate (.replicate (n + 1) "double")).toList := by
      simp [List.replicate_succ]
    rw [hi, List.append_assoc, List.cons_append, hdouble.fields_cons (by decide),
      List.cons_append, fields, if_pos (by decide), ih]
    rfl

theorem fields_text {type : ReturnType} (ht : type.Inhabited) (rest : List Char) :
    fields isWordEnd false (type.text.toList ++ ' ' :: rest) =
      type.words.map String.toList ++ fields isWordEnd false rest := by
  cases type with
  | void | double => simp [text, words, fields, isWordEnd, isLineEnd]
  | aggregate width =>
    obtain ⟨n, rfl⟩ := Nat.exists_eq_succ_of_ne_zero fun h => ht (congrArg aggregate h)
    have htext : (text (aggregate (n + 1))).toList ++ ' ' :: rest = '\x7b' :: ' ' ::
        ((", ".intercalate (.replicate (n + 1) "double")).toList ++
          ' ' :: '\x7d' :: ' ' :: rest) := by
      simp [text, aggregateType]
    rw [htext, fields, if_neg (by decide), fields, if_pos (by decide), fields_members]
    simp [words, fields, isWordEnd, isLineEnd]

theorem not_mem_memberWords (n : Nat) : ∀ w ∈ memberWords n, w ≠ "\x7d" := by
  induction n using memberWords.induct with
  | case1 => simp [memberWords]
  | case2 => simp [memberWords]
  | case3 n ih => simpa [memberWords] using ih

theorem count_memberWords (n : Nat) : (memberWords n).count "double" = n := by
  induction n using memberWords.induct with
  | case1 => rfl
  | case2 => rfl
  | case3 n ih => simp [memberWords, ih]

theorem inLine_text (type : ReturnType) : IsField isLineEnd type.text.toList := by
  cases type with
  | void | double => decide
  | aggregate width =>
    have hmembers : IsField isLineEnd (", ".intercalate (.replicate width "double")).toList := by
      rw [String.toList_intercalate]
      refine IsField.intercalate (by decide) ?_
      simp only [List.map_replicate, List.mem_replicate]
      rintro _ ⟨-, rfl⟩
      decide
    have hl : IsField isLineEnd "\x7b ".toList := by decide
    have hr : IsField isLineEnd " \x7d".toList := by decide
    rw [text, aggregateType, String.toList_append, String.toList_append]
    exact (hl.append hmembers).append hr

end ReturnType

namespace Program

open ReturnType

theorem readType?_words (type : ReturnType) (rest : List String) :
    readType? (type.words ++ rest) = some (type, rest) := by
  cases type with
  | void | double => rfl
  | aggregate width =>
    have htake : (memberWords width ++ "\x7d" :: rest).takeWhile (· ≠ "\x7d") =
        memberWords width := by
      rw [List.takeWhile_append_of_pos (by simpa using not_mem_memberWords width)]
      simp
    have hwords : (aggregate width).words ++ rest =
        "\x7b" :: (memberWords width ++ "\x7d" :: rest) := by simp [words]
    rw [hwords, readType?, htake, List.drop_left, count_memberWords]
    rfl

/-- The words of values in parentheses, with an empty one behind the end of these. -/
def typedWords (ps : List (String × String)) : List String :=
  if ps = [] then ["", ""] else ps.flatMap fun p => [p.1, p.2, ""]

theorem fields_typed {ps : List (String × String)} (hp : ∀ p ∈ ps, IsWord p.1 ∧ IsWord p.2)
    {rest : List Char} {ws : List (List Char)} (hrest : fields isWordEnd false rest = [] :: ws) :
    fields isWordEnd false
        ((", ".intercalate (ps.map fun p => p.1 ++ " " ++ p.2)).toList ++ ')' :: rest) =
      (typedWords ps).map String.toList ++ ws := by
  induction ps with
  | nil => simp [typedWords, fields, isWordEnd, hrest]
  | cons p ps ih =>
    obtain ⟨⟨h₁, h₂⟩, hp⟩ := List.forall_mem_cons.1 hp
    cases ps with
    | nil => simp [typedWords, h₁.fields_cons, h₂.fields_cons, isWordEnd, hrest]
    | cons p' ps =>
      have hi : (", ".intercalate ((p :: p' :: ps).map fun p => p.1 ++ " " ++ p.2)).toList ++
          ')' :: rest = p.1.toList ++ ' ' :: (p.2.toList ++ ',' :: ' ' ::
            ((", ".intercalate ((p' :: ps).map fun p => p.1 ++ " " ++ p.2)).toList ++
              ')' :: rest)) := by
        simp
      rw [hi, h₁.fields_cons (by decide), h₂.fields_cons (by decide), fields, if_pos (by decide),
        ih hp]
      simp [typedWords]

theorem inLine_typed {ps : List (String × String)} (hp : ∀ p ∈ ps, IsWord p.1 ∧ IsWord p.2) :
    IsField isLineEnd (", ".intercalate (ps.map fun p => p.1 ++ " " ++ p.2)).toList := by
  rw [String.toList_intercalate, List.map_map]
  refine IsField.intercalate (by decide) fun w hw => ?_
  obtain ⟨p, hm, rfl⟩ := List.mem_map.1 hw
  simp [inLine_cons_iff, (hp p hm).1.inLine.append_iff, (hp p hm).2.inLine]

theorem readTyped_typedWords (ps : List (String × String)) {ws : List String}
    (hw : ws = [] ∨ ws = ["\x7b"]) : readTyped (typedWords ps ++ ws) = ps := by
  have hflat : readTyped ((ps.flatMap fun p => [p.1, p.2, ""]) ++ ws) = ps := by
    induction ps with
    | nil => rcases hw with rfl | rfl <;> rfl
    | cons p ps ih => simpa [readTyped] using ih
  by_cases hps : ps = []
  · subst hps
    rcases hw with rfl | rfl <;> rfl
  · rwa [typedWords, if_neg hps]

theorem readNumber_repr (n : Nat) : readNumber (Nat.repr n) = n := by
  rw [readNumber, Nat.toList_repr, Nat.ofDigitChars_ten_toDigits]

end Program

namespace Instruction

/-- What can be told from its line: operands and registers are words, and keywords are those that
there are. -/
inductive Readable : Instruction → Prop
  | arith {dest mnemonic lhs rhs : String} (hd : IsRegister dest)
    (hm : mnemonic ∈ ["fadd", "fsub", "fmul", "fdiv"]) (hl : IsWord lhs) (hr : IsWord rhs) :
    Readable (.arith dest mnemonic lhs rhs)
  | neg {dest operand : String} (hd : IsRegister dest) (hx : IsWord operand) :
    Readable (.neg dest operand)
  | call {dest intrinsic : String} {args : List String} (hd : IsRegister dest)
    (hf : intrinsic ∈ Program.intrinsics.map Prod.fst) (ha : ∀ x ∈ args, IsWord x) :
    Readable (.call dest intrinsic args)
  | elementPtr {dest base : String} (hd : IsRegister dest) (hb : IsWord base) (index : Nat) :
    Readable (.elementPtr dest base index)
  | load {dest ptr : String} (hd : IsRegister dest) (hp : IsWord ptr) : Readable (.load dest ptr)
  | store {value ptr : String} (hv : IsWord value) (hp : IsWord ptr) : Readable (.store value ptr)
  | insertValue {dest value : String} {width : Nat} {aggregate : Option String}
    (hd : IsRegister dest) (hw : 0 < width)
    (ha : ∀ start, aggregate = some start → IsRegister start) (hv : IsWord value) (index : Nat) :
    Readable (.insertValue dest width aggregate value index)
  | leave : Readable (.ret .void none)
  | ret {type : ReturnType} {value : String} (hv : type ≠ .void) (ht : type.Inhabited)
    (hx : IsWord value) : Readable (.ret type (some value))

def line (i : Instruction) : List Char :=
  ("  " ++ i.text).toList

open Program

def words : Instruction → List String
  | arith dest mnemonic lhs rhs => ["", "", dest, "=", mnemonic, "double", lhs, "", rhs]
  | neg dest operand => ["", "", dest, "=", "fneg", "double", operand]
  | call dest intrinsic args =>
    "" :: "" :: dest :: "=" :: "call" :: "double" :: ("@llvm." ++ intrinsic ++ ".f64") ::
      typedWords (args.map ("double", ·))
  | elementPtr dest base index =>
    ["", "", dest, "=", "getelementptr", "double", "", "ptr", base, "", "i64", Nat.repr index]
  | load dest ptr => ["", "", dest, "=", "load", "double", "", "ptr", ptr]
  | store value ptr => ["", "", "store", "double", value, "", "ptr", ptr]
  | insertValue dest width aggregate value index =>
    "" :: "" :: dest :: "=" :: "insertvalue" :: ((ReturnType.aggregate width).words ++
      [aggregate.getD "undef", "", "double", value, "", Nat.repr index])
  | ret type value => "" :: "" :: "ret" :: (type.words ++ value.toList)

theorem isWord_mnemonic {mnemonic : String} (hm : mnemonic ∈ ["fadd", "fsub", "fmul", "fdiv"]) :
    IsWord mnemonic := by
  simp only [List.mem_cons, List.not_mem_nil, or_false] at hm
  rcases hm with rfl | rfl | rfl | rfl <;> decide

theorem readIntrinsic?_function {intrinsic : String} (hf : intrinsic ∈ intrinsics.map Prod.fst) :
    IsWord ("@llvm." ++ intrinsic ++ ".f64") ∧
      readIntrinsic? ("@llvm." ++ intrinsic ++ ".f64") = some intrinsic := by
  simp only [intrinsics, List.map_cons, List.map_nil, List.mem_cons, List.not_mem_nil,
    or_false] at hf
  rcases hf with rfl | rfl | rfl | rfl | rfl <;> decide

theorem isWord_start {aggregate : Option String}
    (ha : ∀ start, aggregate = some start → IsRegister start) :
    IsWord (aggregate.getD "undef") := by
  cases aggregate with
  | none => decide
  | some start => exact (ha start rfl).word

theorem typed_doubles {args : List String} (ha : ∀ x ∈ args, IsWord x) :
    ∀ p ∈ args.map ("double", ·), IsWord p.1 ∧ IsWord p.2 := by
  intro p hp
  obtain ⟨x, hx, rfl⟩ := List.mem_map.1 hp
  exact ⟨(by decide : IsWord "double"), ha x hx⟩

theorem line_call (dest intrinsic : String) (args : List String) :
    line (call dest intrinsic args) = ' ' :: ' ' :: (dest.toList ++ ' ' ::
      ("=".toList ++ ' ' :: ("call".toList ++ ' ' :: ("double".toList ++ ' ' ::
        (("@llvm." ++ intrinsic ++ ".f64").toList ++ '(' ::
          ((", ".intercalate ((args.map ("double", ·)).map fun p => p.1 ++ " " ++ p.2)).toList ++
            [')'])))))) := by
  simp [line, text, toString, Function.comp_def]

theorem line_insertValue (dest : String) (width : Nat) (aggregate : Option String)
    (value : String) (index : Nat) :
    line (insertValue dest width aggregate value index) = ' ' :: ' ' :: (dest.toList ++ ' ' ::
      ("=".toList ++ ' ' :: ("insertvalue".toList ++ ' ' ::
        ((ReturnType.aggregate width).text.toList ++ ' ' ::
          ((aggregate.getD "undef").toList ++ ',' :: ' ' :: ("double".toList ++ ' ' ::
            (value.toList ++ ',' :: ' ' :: Nat.toDigits 10 index))))))) := by
  simp [line, text, toString, ReturnType.text]

/-- The line of an instruction is split into its words. -/
theorem splitWords_line {i : Instruction} (hi : i.Readable) : splitWords i.line = i.words := by
  have hequal : IsWord "=" := by decide
  have hdouble : IsWord "double" := by decide
  cases hi with
  | arith hd hm hl hr =>
    simp [splitWords, line, text, words, toString, fields, isWordEnd, isLineEnd,
      hd.word.fields_cons, (isWord_mnemonic hm).fields_cons, hl.fields_cons, hr.fields_eq]
  | neg hd hx =>
    simp [splitWords, line, text, words, toString, fields, isWordEnd, isLineEnd,
      hd.word.fields_cons, hx.fields_eq]
  | @call dest intrinsic args hd hf ha =>
    have hcall : IsWord "call" := by decide
    have hargs : fields isWordEnd false
        ((", ".intercalate ((args.map ("double", ·)).map fun p => p.1 ++ " " ++ p.2)).toList ++
          [')']) = (typedWords (args.map ("double", ·))).map String.toList ++ [] :=
      fields_typed (typed_doubles ha) rfl
    rw [splitWords, line_call, fields_break rfl, fields_break rfl, hd.word.fields_cons rfl,
      hequal.fields_cons rfl, hcall.fields_cons rfl, hdouble.fields_cons rfl,
      (readIntrinsic?_function hf).1.fields_cons rfl, hargs, List.append_nil]
    simp only [List.map_cons, map_ofList_toList, String.ofList_toList]
    rfl
  | elementPtr hd hb index =>
    simp [splitWords, line, text, words, toString, fields, isWordEnd, isLineEnd,
      hd.word.fields_cons, hb.fields_cons, (isField_digits index).fields_eq, Nat.repr]
  | load hd hp =>
    simp [splitWords, line, text, words, toString, fields, isWordEnd, isLineEnd,
      hd.word.fields_cons, hp.fields_eq]
  | store hv hp =>
    simp [splitWords, line, text, words, toString, fields, isWordEnd, isLineEnd, hv.fields_cons,
      hp.fields_eq]
  | @insertValue dest value width aggregate hd hw ha hv index =>
    have hinsert : IsWord "insertvalue" := by decide
    have htype : (ReturnType.aggregate width).Inhabited := by
      simpa [ReturnType.Inhabited] using Nat.ne_of_gt hw
    rw [splitWords, line_insertValue, fields_break rfl, fields_break rfl, hd.word.fields_cons rfl,
      hequal.fields_cons rfl, hinsert.fields_cons rfl, ReturnType.fields_text htype,
      (isWord_start ha).fields_cons rfl, fields_break rfl, hdouble.fields_cons rfl,
      hv.fields_cons rfl, fields_break rfl, (isField_digits index).fields_eq]
    simp only [List.map_cons, List.map_append, List.map_nil, map_ofList_toList,
      String.ofList_toList]
    rfl
  | leave => rfl
  | ret hv ht hx =>
    simp [splitWords, line, text, words, toString, fields, isWordEnd, isLineEnd,
      ReturnType.fields_text ht, hx.fields_eq]

theorem readInstruction?_definition {dest : String} (hd : IsRegister dest) (mnemonic : String)
    (operands : List String) :
    readInstruction? ("" :: "" :: dest :: "=" :: mnemonic :: operands) =
      readDefinition? dest mnemonic operands := by
  have hs : dest ≠ "store" := hd.ne (by decide)
  have hr : dest ≠ "ret" := hd.ne (by decide)
  simp [readInstruction?, hs, hr]

/-- An instruction is read back from its words. -/
theorem readInstruction?_words {i : Instruction} (hi : i.Readable) :
    readInstruction? i.words = some i := by
  cases hi with
  | arith hd hm hl hr =>
    rw [words, readInstruction?_definition hd]
    simp only [List.mem_cons, List.not_mem_nil, or_false] at hm
    rcases hm with rfl | rfl | rfl | rfl <;> rfl
  | neg hd hx =>
    rw [words, readInstruction?_definition hd]
    rfl
  | @call dest intrinsic args hd hf ha =>
    rw [words, readInstruction?_definition hd]
    show (readIntrinsic? _).map (call dest · ((readTyped _).map Prod.snd)) = _
    have hps := readTyped_typedWords (args.map ("double", ·)) (.inl rfl)
    rw [List.append_nil] at hps
    rw [(readIntrinsic?_function hf).2, hps, List.map_map]
    simp [Function.comp_def]
  | @elementPtr dest base hd hb index =>
    rw [words, readInstruction?_definition hd]
    exact congrArg (fun n => some (elementPtr dest base n)) (readNumber_repr index)
  | load hd hp =>
    rw [words, readInstruction?_definition hd]
    rfl
  | store hv hp => rfl
  | @insertValue dest value width aggregate hd hw ha hv index =>
    rw [words, readInstruction?_definition hd]
    cases aggregate with
    | none => simp [readDefinition?, readType?_words, readNumber_repr]
    | some start =>
      have hne : start ≠ "undef" := (ha start rfl).ne (by decide)
      simp [readDefinition?, readType?_words, readNumber_repr, hne]
  | leave => rfl
  | @ret type value hv ht hx =>
    show readReturn? (type.words ++ [value]) = _
    rw [readReturn?, readType?_words]
    cases type with
    | void => exact absurd rfl hv
    | double | aggregate => rfl

theorem inLine_line {i : Instruction} (hi : i.Readable) : IsField isLineEnd i.line := by
  have hdigits (n : Nat) : IsField isLineEnd (Nat.toDigits 10 n) :=
    Leads.mono (fun c hc => by simp [isWordEnd, hc]) (isField_digits n)
  cases hi with
  | arith hd hm hl hr =>
    simp [line, text, toString, inLine_cons_iff, hd.word.inLine.append_iff,
      (isWord_mnemonic hm).inLine.append_iff, hl.inLine.append_iff, hr.inLine]
  | neg hd hx =>
    simp [line, text, toString, inLine_cons_iff, hd.word.inLine.append_iff, hx.inLine]
  | @call dest intrinsic args hd hf ha =>
    have hfunction := (readIntrinsic?_function hf).1.inLine
    have hend : IsField isLineEnd [')'] := by decide
    have htail := hfunction.append (.append (by decide : IsField isLineEnd ['('])
      ((inLine_typed (typed_doubles ha)).append hend))
    rw [line_call]
    simpa [inLine_cons_iff, hd.word.inLine.append_iff] using htail
  | elementPtr hd hb index =>
    simp [line, text, toString, inLine_cons_iff, hd.word.inLine.append_iff,
      hb.inLine.append_iff, hdigits]
  | load hd hp =>
    simp [line, text, toString, inLine_cons_iff, hd.word.inLine.append_iff, hp.inLine]
  | store hv hp =>
    simp [line, text, toString, inLine_cons_iff, hv.inLine.append_iff, hp.inLine]
  | @insertValue dest value width aggregate hd hw ha hv index =>
    have htype := ReturnType.inLine_text (.aggregate width)
    rw [line_insertValue]
    simp [inLine_cons_iff, hd.word.inLine.append_iff, htype.append_iff,
      (isWord_start ha).inLine.append_iff, hv.inLine.append_iff, hdigits]
  | leave => decide
  | @ret type value hv ht hx =>
    simp [line, text, toString, inLine_cons_iff, (ReturnType.inLine_text type).append_iff,
      hx.inLine]

end Instruction

end SharedExpr
