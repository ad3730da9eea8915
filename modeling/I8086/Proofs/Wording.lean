import I8086.Proofs.Numerals
import I8086.Proofs.Slots

/-!
# How instructions are put into words

The text of an instruction is a head, which is the prefixes and the mnemonic, and then the operands
with commas between them.  Nothing of it is ambiguous.

* `renderOperand_inj` reads an operand back.  What is missing from its text is the segment of a
  place in memory that no prefix names.
* `Instruction.head_inj` separates the head from the rest of the text, and `written_inj` separates
  the operands from each other.
* `Instruction.lacks_render` says which characters never occur, so that comments and labels can be
  told from instructions.
-/

set_option autoImplicit false

namespace I8086

open Text

/-! ## Characters -/

namespace Text

/-- None of the characters occurs in the text. -/
def Lacks (cs : List Char) (s : String) : Prop := ∀ c ∈ cs, c ∉ s.toList

theorem Lacks.append {cs : List Char} {s t : String} (hs : Lacks cs s) (ht : Lacks cs t) :
    Lacks cs (s ++ t) := by
  intro c hc hmem
  rw [String.toList_append, List.mem_append] at hmem
  exact hmem.elim (hs c hc) (ht c hc)

theorem Lacks.subset {cs ds : List Char} {s : String} (hs : Lacks cs s) (h : ds ⊆ cs) :
    Lacks ds s :=
  fun c hc => hs c (h hc)

theorem lacks_intercalate {cs : List Char} {s : String} (hs : Lacks cs s) {ws : List String}
    (hws : ∀ w ∈ ws, Lacks cs w) : Lacks cs (s.intercalate ws) := by
  induction ws with
  | nil => simp [Lacks]
  | cons w rest ih =>
    cases rest with
    | nil =>
      rw [String.intercalate_singleton]
      exact hws w List.mem_cons_self
    | cons v vs =>
      rw [String.intercalate_cons_cons]
      exact ((hws w List.mem_cons_self).append hs).append
        (ih fun v hv => hws v (List.mem_cons_of_mem _ hv))

theorem lacks_decimal {cs : List Char} (h : ∀ c ∈ cs, c.isDigit = false) (n : Nat) :
    Lacks cs (decimal n) :=
  fun c hc => not_mem_decimal (h c hc) n

/-- The characters with which operands, comments and labels are set apart. -/
def punctuation : List Char := [',', ';', '_']

end Text

theorem Register.lacks_name (r : Register) : Lacks (':' :: '$' :: punctuation) r.name := by
  cases r <;> simp [Lacks, punctuation, name]

theorem RegisterPart.lacks_name (part : RegisterPart) : Lacks ('$' :: punctuation) part.name := by
  obtain ⟨r, offset, count⟩ := part
  rw [name]
  split
  · exact r.lacks_name.subset (by simp)
  · split
    · cases r <;> simp [Lacks, punctuation, Register.highName, Register.name]
    · cases r <;> simp [Lacks, punctuation, Register.lowName, Register.name]

namespace Text

/-- What kind of operand a text is, which its characters tell. -/
def kindOf (s : String) : Nat :=
  if '[' ∈ s.toList then 1
  else if '$' ∈ s.toList then 3
  else if s.toList.any Char.isDigit then 2
  else 0

end Text

theorem RegisterPart.encoded_names : ∀ p ∈ encoded, kindOf p.name = 0 ∧
    ∀ q ∈ encoded, p.name = q.name → p = q := by
  decide +kernel

/-! ## Places in memory -/

namespace Base

theorem lacks_equation (b : Base) : Lacks (':' :: '$' :: punctuation) b.equation := by
  cases b <;> simp [Lacks, punctuation, equation]

/-- The sign in front of a distance, which a distance of zero does not have. -/
def sign (d : Int) : String := if d < 0 then " - " else if d > 0 then " + " else ""

/-- What stands in front of the number in a place in memory: the registers and a sign. -/
def lead (b : Base) (d : Int) : String := if b = direct then "" else b.equation ++ sign d

/-- The number in a place in memory, which is left out if it is zero and there are registers. -/
def number (b : Base) (d : Int16) : String :=
  if b = direct then decimal d.toUInt16.toNat
  else if d.toInt = 0 then "" else decimal d.toInt.natAbs

theorem lead_sign (b : Base) (d : Int) : b.lead d.sign = b.lead d := by
  rw [lead, lead, sign, sign]
  simp only [Int.sign_neg_iff, gt_iff_lt, Int.sign_pos_iff]

theorem lead_inj : ∀ b ∈ named, ∀ b' ∈ named, ∀ s ∈ [(-1 : Int), 0, 1],
    ∀ s' ∈ [(-1 : Int), 0, 1], b.lead s = b'.lead s' → b = b' ∧ (b ≠ direct → s = s') := by
  decide +kernel

theorem mem_named {b : Base} (h : b.isNamed = true) : b ∈ named := by
  cases b with
  | other code => cases h
  | _ => simp [named]

theorem isDigit_of_mem_lead {b : Base} {d : Int} {c : Char} (h : c ∈ (b.lead d).toList) :
    c.isDigit = false := by
  have hequation : ∀ c ∈ b.equation.toList, c.isDigit = false := by
    cases b <;> simp [equation]
  have hsign : ∀ c ∈ (sign d).toList, c.isDigit = false := by
    rw [sign]
    split
    · simp
    · split <;> simp
  rw [lead] at h
  split at h
  · simp at h
  · rw [String.toList_append, List.mem_append] at h
    exact h.elim (hequation c) (hsign c)

theorem isDigit_of_mem_number {b : Base} {d : Int16} {c : Char} (h : c ∈ (b.number d).toList) :
    c.isDigit = true := by
  rw [number] at h
  split at h
  · exact isDigit_of_mem_decimal h
  · split at h
    · simp at h
    · exact isDigit_of_mem_decimal h

/-- Registers and number of a place in memory can be read back. -/
theorem expression_inj {b b' : Base} (hb : b.isNamed = true) (hb' : b'.isNamed = true)
    {d d' : Int16} (h : b.lead d.toInt ++ b.number d = b'.lead d'.toInt ++ b'.number d') :
    b = b' ∧ d = d' := by
  have hstops : ∀ (b : Base) (d : Int16), Stops (fun c => !c.isDigit) (b.number d).toList := by
    intro b d c hc
    exact congrArg not (isDigit_of_mem_number (List.mem_of_mem_head? hc))
  have hchars := congrArg String.toList h
  rw [String.toList_append, String.toList_append] at hchars
  obtain ⟨hlead, hnumber⟩ := append_inj_of_stops
    (fun c hc => congrArg not (isDigit_of_mem_lead hc))
    (fun c hc => congrArg not (isDigit_of_mem_lead hc)) (hstops b d) (hstops b' d') hchars
  rw [String.toList_inj] at hlead hnumber
  rw [← lead_sign b, ← lead_sign b'] at hlead
  have hsign : ∀ n : Int, n.sign ∈ [(-1 : Int), 0, 1] := by
    intro n
    rcases Int.lt_trichotomy n 0 with hn | rfl | hn
    · simp [Int.sign_eq_neg_one_of_neg hn]
    · simp
    · simp [Int.sign_eq_one_of_pos hn]
  obtain ⟨rfl, hsame⟩ := lead_inj b (mem_named hb) b' (mem_named hb') _ (hsign _) _ (hsign _) hlead
  refine ⟨rfl, ?_⟩
  rw [number, number] at hnumber
  split at hnumber
  · exact congrArg UInt16.toInt16 (UInt16.toNat_inj.1 (decimal_injective hnumber))
  · rename_i hdirect
    rw [← Int16.toInt_inj, ← Int.sign_mul_natAbs d.toInt, ← Int.sign_mul_natAbs d'.toInt,
      hsame hdirect]
    by_cases hzero : d.toInt = 0
    · have hzero' : d'.toInt = 0 := by rw [← Int.sign_eq_zero_iff_zero, ← hsame hdirect, hzero]; rfl
      rw [hzero, hzero']
    · have hzero' : d'.toInt ≠ 0 := by
        rwa [Ne, ← Int.sign_eq_zero_iff_zero, ← hsame hdirect, Int.sign_eq_zero_iff_zero]
      rw [if_neg hzero, if_neg hzero'] at hnumber
      rw [decimal_injective hnumber]

end Base

theorem Base.lacks_expression (b : Base) (d : Int16) :
    Lacks (':' :: '$' :: punctuation) (b.lead d.toInt ++ b.number d) := by
  have hdigit : ∀ c ∈ ':' :: '$' :: punctuation, c.isDigit = false := by simp [punctuation]
  have hempty : Lacks (':' :: '$' :: punctuation) "" := by simp [Lacks]
  refine .append ?_ ?_
  · rw [lead]
    split
    · exact hempty
    · refine b.lacks_equation.append ?_
      rw [sign]
      split
      · simp [Lacks, punctuation]
      · split <;> simp [Lacks, punctuation]
  · rw [number]
    split
    · exact lacks_decimal hdigit _
    · split
      · exact hempty
      · exact lacks_decimal hdigit _

theorem Base.renderDisplacement_eq {b : Base} (hb : b ≠ .direct) (d : Int16) :
    b.equation ++ renderDisplacement d.toInt = b.lead d.toInt ++ b.number d := by
  rw [lead, number, if_neg hb, if_neg hb, String.append_assoc, renderDisplacement, sign]
  rcases Int.lt_trichotomy d.toInt 0 with hd | hd | hd
  · rw [if_pos hd, if_pos hd, if_neg (by omega)]
  · rw [hd]
    rfl
  · rw [if_neg (by omega), if_pos hd, if_neg (by omega), if_pos hd, if_neg (by omega)]

theorem renderPlace_eq (overridden : Bool) (place : MemoryOperand) :
    renderPlace overridden place =
      "[" ++ (if overridden then place.segment.name ++ ":" else "") ++
        (place.base.lead place.displacement.toInt ++ place.base.number place.displacement) ++
        "]" := by
  refine congrArg
    (fun e => "[" ++ (if overridden then place.segment.name ++ ":" else "") ++ e ++ "]") ?_
  split
  · rename_i hdirect
    rw [hdirect, Base.lead, Base.number, if_pos rfl, if_pos rfl, String.empty_append]
  · rename_i hdirect
    exact Base.renderDisplacement_eq hdirect _

/-- A segment in front of an expression can be read back, and so can the lack of one. -/
theorem segment_inj {overridden overridden' : Bool} {r r' : Register} {e e' : String}
    (he : ':' ∉ e.toList) (he' : ':' ∉ e'.toList)
    (h : (if overridden then r.name ++ ":" else "") ++ e =
      (if overridden' then r'.name ++ ":" else "") ++ e') :
    overridden = overridden' ∧ (overridden = true → r.name = r'.name) ∧ e = e' := by
  have hchars := congrArg String.toList h
  cases overridden with
  | false =>
    cases overridden' with
    | false => exact ⟨rfl, fun ho => absurd ho Bool.false_ne_true, by simpa using h⟩
    | true =>
      refine absurd ?_ he
      rw [show e.toList = r'.name.toList ++ ':' :: e'.toList by simpa using hchars]
      simp
  | true =>
    cases overridden' with
    | false =>
      refine absurd ?_ he'
      rw [show e'.toList = r.name.toList ++ ':' :: e.toList by simpa using hchars.symm]
      simp
    | true =>
      have hname : ∀ r : Register, ':' ∉ r.name.toList := fun r => r.lacks_name ':' (by simp)
      have hparts : r.name.toList ++ ':' :: e.toList = r'.name.toList ++ ':' :: e'.toList := by
        simpa using hchars
      obtain ⟨hsame, hrest⟩ := append_cons_inj (hname r) (hname r') hparts
      exact ⟨rfl, fun _ => String.toList_inj.1 hsame, String.toList_inj.1 hrest⟩

/-- A place in memory can be read back, apart from a segment that is not named. -/
theorem renderPlace_inj {overridden overridden' : Bool} {place place' : MemoryOperand}
    (hbase : place.base.isNamed = true) (hbase' : place'.base.isNamed = true)
    (hsegment : RegisterPart.whole place.segment ∈ RegisterPart.encoded)
    (hsegment' : RegisterPart.whole place'.segment ∈ RegisterPart.encoded)
    (h : renderPlace overridden place = renderPlace overridden' place') :
    overridden = overridden' ∧ (overridden = true → place.segment = place'.segment) ∧
      place.base = place'.base ∧ place.displacement = place'.displacement := by
  rw [renderPlace_eq, renderPlace_eq, String.append_left_inj, String.append_assoc,
    String.append_assoc, String.append_right_inj] at h
  obtain ⟨hsame, hname, hexpression⟩ := segment_inj
    (place.base.lacks_expression place.displacement ':' (by simp))
    (place'.base.lacks_expression place'.displacement ':' (by simp)) h
  refine ⟨hsame, fun ho => ?_, Base.expression_inj hbase hbase' hexpression⟩
  exact congrArg RegisterPart.register
    ((RegisterPart.encoded_names _ hsegment).2 _ hsegment' (hname ho))

/-! ## Operands -/

namespace Operand

/-- Every code of the operand has a text of its own. -/
def Spelled : Operand → Prop
  | register part => part ∈ RegisterPart.encoded
  | memory place =>
    place.base.isNamed = true ∧ RegisterPart.whole place.segment ∈ RegisterPart.encoded
  | immediate _ | relative _ => True

end Operand

theorem lacks_renderImmediate {cs : List Char} (h : ∀ c ∈ cs, c.isDigit = false) (hs : '-' ∉ cs)
    (value : UInt32) : Lacks cs (renderImmediate value) := by
  have hsign : Lacks cs "-" := by
    intro c hc hmem
    rw [show c = '-' by simpa using hmem] at hc
    exact hs hc
  rw [renderImmediate, signed]
  split
  · split
    · exact hsign.append (lacks_decimal h _)
    · exact lacks_decimal h _
  · exact lacks_decimal h _

theorem any_isDigit_renderImmediate (value : UInt32) :
    (renderImmediate value).toList.any Char.isDigit = true := by
  have hdecimal : ∀ n : Nat, (decimal n).toList.any Char.isDigit = true := by
    intro n
    obtain ⟨c, hc⟩ := List.exists_mem_of_ne_nil _ (decimal_ne_nil n)
    exact List.any_eq_true.2 ⟨c, hc, isDigit_of_mem_decimal hc⟩
  rw [renderImmediate, signed]
  split
  · split
    · rw [String.toList_append, List.any_append, hdecimal, Bool.or_true]
    · exact hdecimal _
  · exact hdecimal _

/-- The text of an operand shows its kind. -/
theorem kindOf_renderOperand (i : Instruction) (first : Option Operand) {x : Operand}
    (hx : x.Spelled) : kindOf (renderOperand i first x) = x.ctorIdx := by
  cases x with
  | register part => exact (RegisterPart.encoded_names part hx).1
  | memory place =>
    refine if_pos ?_
    rw [renderOperand, renderPlace_eq]
    simp
  | immediate value =>
    have hlacks : Lacks ['[', '$'] (renderImmediate value) :=
      lacks_renderImmediate (by simp) (by simp) value
    rw [renderOperand, kindOf, if_neg (hlacks '[' (by simp)), if_neg (hlacks '$' (by simp)),
      if_pos (any_isDigit_renderImmediate value)]
    rfl
  | relative distance =>
    have hlacks : Lacks ['['] ("$" ++ plusSigned distance.toInt) := by
      rw [plusSigned]
      split <;> simp [Lacks, not_mem_decimal]
    rw [renderOperand, kindOf, if_neg (hlacks '[' (by simp)), if_pos (by simp)]
    rfl

theorem renderImmediate_injective {v v' : UInt32} (h : renderImmediate v = renderImmediate v') :
    v = v' := by
  have hsigned : ∀ v : UInt32, renderImmediate v =
      signed (if v > 0xffff then v.toInt32.toInt else v.toNat) := by
    intro v
    rw [renderImmediate]
    split
    · rfl
    · rw [signed, if_neg (by omega)]
      rfl
  have hint : ∀ v : UInt32, v.toInt32.toInt =
      if 2 * v.toNat < 4294967296 then (v.toNat : Int) else v.toNat - 4294967296 :=
    fun v => BitVec.toInt_eq_toNat_cond v.toBitVec
  have hlt : ∀ v : UInt32, v > 0xffff ↔ 65535 < v.toNat := fun v => UInt32.lt_iff_toNat_lt
  rw [hsigned, hsigned] at h
  have hvalue := signed_injective h
  have hv := v.toNat_lt
  have hv' := v'.toNat_lt
  simp only [hint, hlt] at hvalue
  rw [← UInt32.toNat_inj]
  repeat' split at hvalue
  all_goals omega

/-- A memory operand can be split into the words for its size and the place. -/
theorem sizeWords_append_inj {i j : Instruction} {first first' : Option Operand} {o o' : Bool}
    {place place' : MemoryOperand}
    (h : sizeWords i first ++ renderPlace o place = sizeWords j first' ++ renderPlace o' place') :
    sizeWords i first = sizeWords j first' ∧ renderPlace o place = renderPlace o' place' := by
  have hbracket : ∀ (i : Instruction) (first : Option Operand),
      '[' ∉ (sizeWords i first).toList := by
    intro i first
    unfold sizeWords
    repeat' split
    all_goals simp
  have hplace : ∀ (o : Bool) (place : MemoryOperand),
      ∃ rest, (renderPlace o place).toList = '[' :: rest := by
    intro o place
    rw [renderPlace_eq, String.append_assoc, String.append_assoc, String.toList_append]
    exact ⟨_, rfl⟩
  obtain ⟨rest, hrest⟩ := hplace o place
  obtain ⟨rest', hrest'⟩ := hplace o' place'
  have hchars := congrArg String.toList h
  rw [String.toList_append, String.toList_append, hrest, hrest'] at hchars
  obtain ⟨hsize, htail⟩ := append_cons_inj (hbracket i first) (hbracket j first') hchars
  refine ⟨String.toList_inj.1 hsize, ?_⟩
  rw [← String.toList_inj, hrest, hrest', htail]

/-- **An operand can be read back**, apart from the segment of a place in memory that no prefix
names.  A place in memory tells its size, too, if the size is not clear from a register. -/
theorem renderOperand_inj {i j : Instruction} {first first' : Option Operand} {x y : Operand}
    (hx : x.Spelled) (hy : y.Spelled)
    (h : renderOperand i first x = renderOperand j first' y) :
    x.inSegment .ds = y.inSegment .ds ∧ ∀ place, x = .memory place →
      sizeWords i first = sizeWords j first' ∧
      i.modifiers.has .segment = j.modifiers.has .segment ∧
      (i.modifiers.has .segment = true → x = y) := by
  have hkind : x.ctorIdx = y.ctorIdx := by
    rw [← kindOf_renderOperand i first hx, ← kindOf_renderOperand j first' hy, h]
  cases x with
  | register part =>
    cases y <;> cases hkind
    case register part' =>
      have hpart := (RegisterPart.encoded_names _ hx).2 _ hy h
      exact ⟨congrArg Operand.register hpart, fun place hplace => by cases hplace⟩
  | memory place =>
    cases y <;> cases hkind
    case memory place' =>
      obtain ⟨segment, base, displacement⟩ := place
      obtain ⟨segment', base', displacement'⟩ := place'
      obtain ⟨hsize, hplace⟩ := sizeWords_append_inj h
      obtain ⟨hnamed, hsegment, rfl, rfl⟩ := renderPlace_inj hx.1 hy.1 hx.2 hy.2 hplace
      exact ⟨rfl, fun _ _ => ⟨hsize, hnamed, fun ho =>
        congrArg (fun segment => Operand.memory ⟨segment, base, displacement⟩) (hsegment ho)⟩⟩
  | immediate value =>
    cases y <;> cases hkind
    case immediate value' =>
      have hvalue := renderImmediate_injective h
      exact ⟨congrArg Operand.immediate hvalue, fun place hplace => by cases hplace⟩
  | relative distance =>
    cases y <;> cases hkind
    case relative distance' =>
      have hdistance := plusSigned_injective (String.append_right_inj "$" |>.1 h)
      exact ⟨congrArg Operand.relative (Int32.toInt_inj.1 hdistance),
        fun place hplace => by cases hplace⟩

/-! ## The head -/

namespace Operation

/-- The mnemonic with the letter of its operand size. -/
def word (op : Operation) (wide : Bool) : String :=
  op.mnemonic ++ if op.isString then if wide then "w" else "b" else ""

/-- The operations that the machine executes, some of them only with certain operands. -/
def isExecuted : Operation → Bool
  | mov | add | sub | cmp | jmp | nop | hlt => true
  | op => op.isShortJump

/-- The words that stand for prefixes. -/
def prefixWords : List String := ["lock", "rep", "repz", "repnz"]

/-- A word is set apart by spaces, is no prefix unless it is the last one, and names an operation
that is executed only if it is that operation. -/
structure Worded (op : Operation) (wide : Bool) : Prop where
  lacks : ∀ c ∈ (op.word wide).toList, c ≠ ' ' ∧ c ≠ ';' ∧ c ≠ '_' ∧ c ≠ '$'
  marker : op.word wide ∈ prefixWords → op = lock ∨ op = rep
  executed : ∀ e ∈ named.filter isExecuted, op.word wide = e.mnemonic → op = e

instance (op : Operation) (wide : Bool) : Decidable (op.Worded wide) :=
  -- look at the characters of the word only, and not at all characters
  haveI : Decidable (∀ c ∈ (op.word wide).toList, c ≠ ' ' ∧ c ≠ ';' ∧ c ≠ '_' ∧ c ≠ '$') :=
    List.decidableBAll _ _
  decidable_of_iff (_ ∧ _ ∧ _)
    ⟨fun h => ⟨h.1, h.2.1, h.2.2⟩, fun h => ⟨h.lacks, h.marker, h.executed⟩⟩

theorem worded_named : ∀ op ∈ other 0 :: named, ∀ wide, op.Worded wide := by
  decide +kernel

theorem mem_named_or_other (op : Operation) : op ∈ named ∨ ∃ code, op = other code := by
  cases op with
  | other code => exact .inr ⟨code, rfl⟩
  | _ => exact .inl (by decide)

theorem worded (op : Operation) (wide : Bool) : op.Worded wide := by
  rcases op.mem_named_or_other with h | ⟨code, rfl⟩
  · exact worded_named op (List.mem_cons_of_mem _ h) wide
  · -- the codes without an operation share a word, so one of them stands for all
    have h := worded_named (other 0) List.mem_cons_self wide
    refine ⟨h.lacks, fun hword => ?_, fun e he hword => ?_⟩
    · rcases h.marker hword with h | h <;> cases h
    · have hother := h.executed e he hword
      rw [← hother] at he
      exact absurd he (by decide)

theorem lacks_mnemonic (op : Operation) : Lacks [' ', ';', '_'] op.mnemonic := by
  intro c hc hmem
  have hlacks := (op.worded false).lacks c (by
    rw [word, String.toList_append]
    exact List.mem_append_left _ hmem)
  simp only [List.mem_cons, List.not_mem_nil, or_false] at hc
  tauto

end Operation

/-- Words in front of another one, each with a space behind it. -/
def Text.spaced (words : List String) : List Char :=
  words.flatMap fun w => w.toList ++ [' ']

/-- The words in front can be told from the word behind them if none of them is followed by
nothing. -/
theorem Text.spaced_inj {marks : List String} (hmarks : ∀ w ∈ marks, ' ' ∉ w.toList)
    {ws ws' : List String} (hws : ws ⊆ marks) (hws' : ws' ⊆ marks) {w w' : String}
    {rest rest' : List Char} (hw : ' ' ∉ w.toList) (hw' : ' ' ∉ w'.toList)
    (hrest : Stops (· != ' ') rest) (hrest' : Stops (· != ' ') rest')
    (hlast : w ∈ marks → rest = []) (hlast' : w' ∈ marks → rest' = [])
    (h : spaced ws ++ (w.toList ++ rest) = spaced ws' ++ (w'.toList ++ rest')) :
    ws = ws' ∧ w = w' ∧ rest = rest' := by
  have hspace : ∀ r : List Char, Stops (· != ' ') (' ' :: r) := fun r => .cons rfl r
  have hcons : ∀ (v : String) (vs : List String) (r : List Char),
      spaced (v :: vs) ++ r = v.toList ++ ' ' :: (spaced vs ++ r) := by
    intro v vs r
    simp [spaced]
  induction ws generalizing ws' with
  | nil =>
    cases ws' with
    | nil =>
      obtain ⟨hsame, hr⟩ := append_inj_of_stops (bne_of_not_mem hw) (bne_of_not_mem hw') hrest
        hrest' h
      exact ⟨rfl, String.toList_inj.1 hsame, hr⟩
    | cons v vs =>
      have hv := hws' List.mem_cons_self
      rw [hcons] at h
      obtain ⟨hsame, hr⟩ := append_inj_of_stops (bne_of_not_mem hw) (bne_of_not_mem (hmarks v hv))
        hrest (hspace _) h
      rw [hlast (String.toList_inj.1 hsame ▸ hv)] at hr
      cases hr
  | cons u us ih =>
    have hu := hws List.mem_cons_self
    rw [hcons] at h
    cases ws' with
    | nil =>
      obtain ⟨hsame, hr⟩ := append_inj_of_stops (bne_of_not_mem (hmarks u hu)) (bne_of_not_mem hw')
        (hspace _) hrest' h
      rw [hlast' (String.toList_inj.1 hsame ▸ hu)] at hr
      cases hr
    | cons v vs =>
      have hv := hws' List.mem_cons_self
      rw [hcons] at h
      obtain ⟨hsame, hr⟩ := append_cons_inj (hmarks u hu) (hmarks v hv) h
      obtain ⟨rfl, hword, hrest⟩ := ih (fun _ hm => hws (List.mem_cons_of_mem _ hm))
        (fun _ hm => hws' (List.mem_cons_of_mem _ hm)) hr
      exact ⟨by rw [String.toList_inj.1 hsame], hword, hrest⟩

namespace Instruction

/-- The prefixes of an instruction, as they are written in front of it. -/
def prefixes (i : Instruction) : List String :=
  (if i.modifiers.has .lock then ["lock"] else []) ++
    if i.modifiers.has .repeated then [repeatPrefix i] else []

/-- The word for what the instruction does. -/
def word (i : Instruction) : String := i.operation.word (i.modifiers.has .wide)

theorem toList_renderHead (i : Instruction) :
    i.renderHead.toList = spaced i.prefixes ++ i.word.toList := by
  rw [renderHead, word, Operation.word, prefixes]
  cases i.modifiers.has .lock <;> cases i.modifiers.has .repeated <;> simp [spaced]

theorem prefixes_subset (i : Instruction) : i.prefixes ⊆ Operation.prefixWords := by
  intro w hw
  rw [prefixes, List.mem_append] at hw
  rcases hw with hw | hw
  · split at hw
    · rw [List.mem_singleton.1 hw]
      decide
    · cases hw
  · split at hw
    · rw [List.mem_singleton.1 hw, repeatPrefix]
      repeat' split
      all_goals decide
    · cases hw

/-! ## The operands together -/

/-- The texts of the operands. -/
def written (i : Instruction) : List String :=
  i.writtenOperands.toList.map (renderOperand i i.writtenOperands.first)

/-- What follows the head. -/
def rest (i : Instruction) : String :=
  match i.farPointer? with
  | some (segment, offset) => " " ++ decimal segment.toNat ++ ":" ++ decimal offset.toNat
  | none => if i.written = [] then "" else " " ++ ", ".intercalate i.written

theorem render_eq (i : Instruction) : i.render = i.renderHead ++ i.rest := by
  rw [render, rest, written]
  cases i.farPointer? with
  | some pointer => simp only [String.append_assoc]
  | none =>
    dsimp only
    split
    · rename_i hnil
      rw [if_pos hnil, String.append_empty]
    · rename_i hsome
      rw [if_neg hsome, String.append_assoc]

/-- The rest of a text starts with a space, if there is any. -/
theorem stops_rest (i : Instruction) : Stops (· != ' ') i.rest.toList := by
  rw [rest]
  split
  · rw [String.append_assoc, String.append_assoc, String.toList_append]
    exact .cons rfl _
  · split
    · exact .nil _
    · rw [String.toList_append]
      exact .cons rfl _

theorem rest_of_empty {i : Instruction} (h : i.operands = .empty) : i.rest = "" := by
  have hpointer : i.farPointer? = none := by
    rw [farPointer?, h]
    split <;> rfl
  have hwritten : i.written = [] := by
    rw [written, writtenOperands, h]
    split <;> rfl
  rw [rest, hpointer]
  exact if_pos hwritten

/-- **The head can be told from the rest**, if a prefix on its own has no operands. -/
theorem head_inj {i j : Instruction}
    (hi : i.operation = .lock ∨ i.operation = .rep → i.operands = .empty)
    (hj : j.operation = .lock ∨ j.operation = .rep → j.operands = .empty)
    (h : i.render = j.render) : i.word = j.word ∧ i.rest = j.rest := by
  have hspace : ∀ i : Instruction, ' ' ∉ i.word.toList :=
    fun i hmem => ((i.operation.worded _).lacks ' ' hmem).1 rfl
  have hlast : ∀ {i : Instruction},
      (i.operation = .lock ∨ i.operation = .rep → i.operands = .empty) →
      i.word ∈ Operation.prefixWords → i.rest.toList = [] := by
    intro i hi hword
    rw [rest_of_empty (hi ((i.operation.worded _).marker hword))]
    rfl
  have hchars := congrArg String.toList h
  rw [render_eq, render_eq, String.toList_append, String.toList_append, toList_renderHead,
    toList_renderHead, List.append_assoc, List.append_assoc] at hchars
  obtain ⟨-, hword, hrest⟩ := spaced_inj (by simp [Operation.prefixWords]) i.prefixes_subset
    j.prefixes_subset (hspace i) (hspace j) i.stops_rest j.stops_rest (hlast hi) (hlast hj) hchars
  exact ⟨hword, String.toList_inj.1 hrest⟩

end Instruction

theorem lacks_renderPlace (overridden : Bool) (place : MemoryOperand) :
    Lacks ('$' :: punctuation) (renderPlace overridden place) := by
  have hsegment :
      Lacks ('$' :: punctuation) (if overridden then place.segment.name ++ ":" else "") := by
    split
    · refine (place.segment.lacks_name.subset (by simp)).append ?_
      simp [Lacks, punctuation]
    · simp [Lacks]
  have hbracket : Lacks ('$' :: punctuation) "[" ∧ Lacks ('$' :: punctuation) "]" := by
    simp [Lacks, punctuation]
  rw [renderPlace_eq]
  exact ((hbracket.1.append hsegment).append
    ((place.base.lacks_expression _).subset (by simp))).append hbracket.2

/-- The sign of a distance stands in distances only. -/
theorem lacks_renderOperand_of_not_relative (i : Instruction) (first : Option Operand) {x : Operand}
    (hx : ∀ d, x ≠ .relative d) : Lacks ('$' :: punctuation) (renderOperand i first x) := by
  cases x with
  | register part => exact part.lacks_name
  | memory place =>
    refine .append ?_ (lacks_renderPlace _ place)
    unfold sizeWords
    repeat' split
    all_goals simp [Lacks, punctuation]
  | immediate value => exact lacks_renderImmediate (by simp [punctuation]) (by decide) value
  | relative distance => exact absurd rfl (hx distance)

theorem lacks_renderOperand (i : Instruction) (first : Option Operand) (x : Operand) :
    Lacks punctuation (renderOperand i first x) := by
  by_cases hx : ∃ d, x = .relative d
  · obtain ⟨distance, rfl⟩ := hx
    have hdigit : ∀ c ∈ punctuation, c.isDigit = false := by simp [punctuation]
    have hsign : Lacks punctuation "$" ∧ Lacks punctuation "+" ∧ Lacks punctuation "-" := by
      simp [Lacks, punctuation]
    refine hsign.1.append ?_
    rw [plusSigned]
    split
    · exact hsign.2.2.append (lacks_decimal hdigit _)
    · exact hsign.2.1.append (lacks_decimal hdigit _)
  · exact (lacks_renderOperand_of_not_relative i first fun d hd => hx ⟨d, hd⟩).subset (by simp)

/-- Texts without commas can be told from each other when there are commas between them. -/
theorem Text.intercalate_inj {ws ws' : List String} (hws : ∀ w ∈ ws, ',' ∉ w.toList)
    (hws' : ∀ w ∈ ws', ',' ∉ w.toList) (hne : ws ≠ []) (hne' : ws' ≠ [])
    (h : ", ".intercalate ws = ", ".intercalate ws') : ws = ws' := by
  have hcons : ∀ (w : String) (rest : List String), ∃ tail,
      (", ".intercalate (w :: rest)).toList = w.toList ++ tail ∧ Stops (· != ',') tail ∧
      (rest = [] ∧ tail = [] ∨
        rest ≠ [] ∧ tail = ',' :: ' ' :: (", ".intercalate rest).toList) := by
    intro w rest
    cases rest with
    | nil => exact ⟨[], by simp, .nil _, .inl ⟨rfl, rfl⟩⟩
    | cons v vs =>
      refine ⟨_, ?_, .cons rfl _, .inr ⟨List.cons_ne_nil _ _, rfl⟩⟩
      rw [String.intercalate_cons_cons, String.toList_append, String.toList_append,
        List.append_assoc]
      rfl
  induction ws generalizing ws' with
  | nil => exact absurd rfl hne
  | cons w rest ih =>
    cases ws' with
    | nil => exact absurd rfl hne'
    | cons w' rest' =>
      obtain ⟨tail, htext, hstops, htail⟩ := hcons w rest
      obtain ⟨tail', htext', hstops', htail'⟩ := hcons w' rest'
      obtain ⟨hsame, rfl⟩ := append_inj_of_stops (bne_of_not_mem (hws w List.mem_cons_self))
        (bne_of_not_mem (hws' w' List.mem_cons_self)) hstops hstops'
        (htext.symm.trans ((congrArg String.toList h).trans htext'))
      refine congrArg₂ _ (String.toList_inj.1 hsame) ?_
      rcases htail with ⟨rfl, rfl⟩ | ⟨hrest, rfl⟩ <;>
        rcases htail' with ⟨rfl, hnone⟩ | ⟨hrest', hsome⟩
      · rfl
      · cases hsome
      · cases hnone
      · exact ih (fun v hv => hws v (List.mem_cons_of_mem _ hv))
          (fun v hv => hws' v (List.mem_cons_of_mem _ hv)) hrest hrest'
          (String.toList_inj.1 (List.cons.inj (List.cons.inj hsome).2).2)

namespace Instruction

/-- **The operands can be told from each other.** -/
theorem written_inj {i j : Instruction} (hi : i.farPointer? = none) (hj : j.farPointer? = none)
    (h : i.rest = j.rest) : i.written = j.written := by
  have hcomma : ∀ i : Instruction, ∀ w ∈ i.written, ',' ∉ w.toList := by
    intro i w hw
    obtain ⟨x, -, rfl⟩ := List.mem_map.1 hw
    exact lacks_renderOperand i _ x ',' (by simp [punctuation])
  have hspace : ∀ s : String, " " ++ s ≠ "" := by
    intro s hs
    have := congrArg String.toList hs
    rw [String.toList_append] at this
    cases this
  rw [rest, rest, hi, hj] at h
  dsimp only at h
  split at h
  · rename_i hnone
    split at h
    · rename_i hnone'
      rw [hnone, hnone']
    · exact absurd h.symm (hspace _)
  · rename_i hsome
    split at h
    · exact absurd h (hspace _)
    · rename_i hsome'
      exact intercalate_inj (hcomma i) (hcomma j) hsome hsome' (String.append_right_inj " " |>.1 h)

theorem lacks_rest {cs : List Char} (hcs : cs ⊆ [';', '_', '$']) {i : Instruction}
    (hwritten : ∀ w ∈ i.written, Lacks cs w) : Lacks cs i.rest := by
  have hdecimal : ∀ n, Lacks cs (decimal n) := by
    intro n
    have hlacks : Lacks [';', '_', '$'] (decimal n) := lacks_decimal (by simp) n
    exact hlacks.subset hcs
  have hmarks : Lacks [';', '_', '$'] " " ∧ Lacks [';', '_', '$'] ":" ∧
      Lacks [';', '_', '$'] ", " := by
    simp [Lacks]
  have hspace : Lacks cs " " := hmarks.1.subset hcs
  rw [rest]
  split
  · exact ((hspace.append (hdecimal _)).append (hmarks.2.1.subset hcs)).append (hdecimal _)
  · split
    · simp [Lacks]
    · exact hspace.append (lacks_intercalate (hmarks.2.2.subset hcs) hwritten)

theorem lacks_renderHead (i : Instruction) : Lacks [';', '_', '$'] i.renderHead := by
  have hmarks : ∀ w ∈ Operation.prefixWords, ∀ c ∈ [';', '_', '$'], c ∉ w.toList ++ [' '] := by
    simp [Operation.prefixWords]
  intro c hc hmem
  rw [toList_renderHead, List.mem_append] at hmem
  rcases hmem with hmem | hmem
  · obtain ⟨w, hw, hmem⟩ := List.mem_flatMap.1 hmem
    exact hmarks w (i.prefixes_subset hw) c hc hmem
  · have hword := (i.operation.worded _).lacks c hmem
    simp only [List.mem_cons, List.not_mem_nil, or_false] at hc
    exact hc.elim hword.2.1 fun hc => hc.elim hword.2.2.1 hword.2.2.2

/-- No text of an instruction looks like a comment or a label. -/
theorem lacks_render (i : Instruction) : Lacks [';', '_'] i.render := by
  rw [render_eq]
  refine (i.lacks_renderHead.subset (by simp)).append (lacks_rest (by simp) fun w hw => ?_)
  obtain ⟨x, -, rfl⟩ := List.mem_map.1 hw
  exact (lacks_renderOperand i _ x).subset (by simp [punctuation])

/-- An instruction without a distance shows none. -/
theorem lacks_render_of_not_relative {i : Instruction}
    (h : ∀ x ∈ i.writtenOperands.toList, ∀ d, x ≠ .relative d) : Lacks ['$'] i.render := by
  rw [render_eq]
  refine (i.lacks_renderHead.subset (by simp)).append (lacks_rest (by simp) fun w hw => ?_)
  obtain ⟨x, hx, rfl⟩ := List.mem_map.1 hw
  exact (lacks_renderOperand_of_not_relative i _ (h x hx)).subset (by simp)

end Instruction
end I8086
