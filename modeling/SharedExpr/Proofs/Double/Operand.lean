import Mathlib.Data.Nat.Digits.Defs
import Mathlib.Logic.Function.Basic
import SharedExpr.Proofs.Code.Words
import SharedExpr.Proofs.Double.Constant

/-! The texts of operands, registers and constants alike, are read back by one reader, so that no
text stands for two of them. -/
namespace SharedExpr

inductive Operand where
  | register (r : Register)
  | constant (value : Double)
  deriving DecidableEq

namespace Operand

def text : Operand → String
  | register r => r.text
  | constant value => value.constant

def read? (text : String) : Option Operand :=
  match Register.read? text with
  | some r => some (.register r)
  | none => (Double.readConstant? text).map .constant

end Operand

namespace Register

/-- Only what begins with a percent sign is read as a register. -/
theorem head?_of_read? {text : String} {r : Register} (h : read? text = some r) :
    text.toList.head? = some '%' := by
  rw [read?] at h
  split at h
  case h_4 => cases h
  all_goals next hcs => rw [hcs, List.head?_cons]

end Register

namespace Operand

theorem read?_text (o : Operand) : read? o.text = some o := by
  cases o with
  | register r => rw [text, read?, Register.read?_text]
  | constant value =>
    have hconstant := Double.readConstant?_constant value
    have hregister : Register.read? value.constant = none := by
      cases hr : Register.read? value.constant with
      | none => rfl
      | some r =>
        rw [Double.readConstant?_register (Register.head?_of_read? hr)] at hconstant
        cases hconstant
    rw [text, read?, hregister]
    exact congrArg (Option.map Operand.constant) hconstant

theorem text_injective : Function.Injective text := by
  intro a b h
  have hb := read?_text b
  rw [← h, read?_text] at hb
  exact Option.some.inj hb

end Operand

def isHexDigit (c : Char) : Bool :=
  c.isDigit || (c.isUpper && c.toNat ≤ 'F'.toNat)

namespace Register

/-- Undoes escapes, each of them a backslash and the two digits of a character. There is nothing to
undo if a quote stands by itself, or a backslash without two digits. -/
def undo? : List Char → Option (List Char)
  | '\\' :: a :: b :: cs =>
    if isHexDigit a && isHexDigit b then
      (undo? cs).map (Char.ofNat (16 * Double.hexValue a + Double.hexValue b) :: ·)
    else none
  | c :: cs => if c = '\\' ∨ c = '"' then none else (undo? cs).map (c :: ·)
  | [] => some []

theorem undo?_cons {c : Char} (hb : c ≠ '\\') (hq : c ≠ '"') (cs : List Char) :
    undo? (c :: cs) = (undo? cs).map (c :: ·) := by
  rw [undo?.eq_def]
  split
  · next h => exact absurd (List.cons.inj h).1 hb
  · next h =>
    obtain ⟨rfl, rfl⟩ := List.cons.inj h
    rw [if_neg (not_or.2 ⟨hb, hq⟩)]
  · next h => cases h

def substitute (c : Char) (other cs : List Char) : List Char :=
  cs.flatMap fun x => if x = c then other else [x]

/-- Escapes come from two substitutions, one after the other: the second leaves what the first one
puts in as it is. -/
theorem flatMap_escape (cs : List Char) :
    cs.flatMap escape =
      substitute '"' ['\\', '2', '2'] (substitute '\\' ['\\', '5', 'C'] cs) := by
  rw [substitute, substitute, List.flatMap_assoc]
  congr 1
  funext c
  rw [escape]
  by_cases hb : c = '\\'
  · subst hb
    rfl
  · rw [if_neg hb, if_neg hb, List.flatMap_singleton]

theorem undo?_escape (cs : List Char) : undo? (cs.flatMap escape) = some cs := by
  induction cs with
  | nil => rfl
  | cons c cs ih =>
    rw [List.flatMap_cons, escape]
    by_cases hb : c = '\\'
    · subst hb
      exact congrArg (Option.map ('\\' :: ·)) ih
    · rw [if_neg hb]
      by_cases hq : c = '"'
      · subst hq
        exact congrArg (Option.map ('"' :: ·)) ih
      · rw [if_neg hq, List.singleton_append, undo?_cons hb hq, ih]
        rfl

/-- The text of a register with the given name: the name itself if all of its characters are bare,
and otherwise the name with its backslashes and then its quotes substituted, in quotes. -/
inductive Spells (name text : String) : Prop
  | bare (hbare : name.toList.all isBare) (ht : text.toList = '%' :: name.toList)
  | quoted (hbare : name.toList.all isBare = false) (body : List Char)
    (ht : text.toList = '%' :: '"' :: (body ++ ['"']))
    (hbody : body = substitute '"' ['\\', '2', '2'] (substitute '\\' ['\\', '5', 'C'] name.toList))
    (hundo : undo? body = some name.toList)

theorem spells_quote (name : String) : Spells name (quote name) := by
  by_cases hbare : name.toList.all isBare
  · exact .bare hbare (by rw [toList_quote, if_pos hbare])
  · exact .quoted (by simpa using hbare) _ (by rw [toList_quote, if_neg hbare])
      (flatMap_escape _) (undo?_escape _)

end Register

namespace Double

theorem isHexDigit_digitChar : ∀ k < 16, isHexDigit (Nat.digitChar k).toUpper = true := by
  decide

theorem length_hexDigits (bits : UInt64) : (hexDigits bits).length = 16 := by
  have hle : (Nat.toDigits 16 bits.toNat).length ≤ 16 :=
    Nat.toDigits_length 16 bits.toNat 16 (by decide) bits.toNat_lt
  simp only [hexDigits, List.length_append, List.length_replicate, List.length_map]
  omega

/-- The text of a constant: its bit pattern in sixteen digits, or a decimal with a point that reads
back as the same bits. -/
inductive Spells (x : Double) (text : String) : Prop
  | pattern (digits : List Char) (ht : text.toList = '0' :: 'x' :: digits)
    (hlength : digits.length = 16) (hdigits : ∀ c ∈ digits, isHexDigit c)
    (hbits : readHex digits = x.bits.toNat)
  | decimal (hpoint : '.' ∈ text.toList) (hread : Double.read? text = some x)

theorem spells_constant (x : Double) : Spells x x.constant := by
  rw [constant]
  split
  · next h => exact .decimal (by simpa using h.2.1) h.2.2
  · exact .pattern (hexDigits x.bits) (by simp) (length_hexDigits x.bits)
      (forall_mem_hexDigits isHexDigit_digitChar x.bits) (readHex_hexDigits x.bits)

end Double

/-- The texts of operands are an unambiguous code. One reader gives back every register, whatever
name it has, and every constant bit by bit, so that no text stands for two operands. The names of
values and addresses are spelled as they are or in quotes within which there is nothing but escapes
and characters that need none, and the constants in sixteen digits or with a point. -/
theorem Operand.encoding :
    (∀ o : Operand, Operand.read? o.text = some o) ∧ Function.Injective Operand.text ∧
      (∀ name : String, Register.Spells ("v." ++ name) (Register.value name).text ∧
        Register.Spells ("p." ++ name) (Register.address name).text) ∧
      ∀ x : Double, Double.Spells x x.constant :=
  ⟨Operand.read?_text, Operand.text_injective,
    fun _ => ⟨Register.spells_quote _, Register.spells_quote _⟩, Double.spells_constant⟩

/-- A name may itself look like an escape. -/
example : Operand.read? "%\"v.q\\5C22\"" = some (.register (.value "q\\22")) := by decide

end SharedExpr
