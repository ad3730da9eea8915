import I8086.Listing.Basic
import Std.Data.HashSet

/-!
# Listings with labels

Relative jumps point to labels instead of distances. A label stands in front of the prefixes of the
instruction at its address; a jump to an address where no listed instruction starts keeps its
distance.
-/

set_option autoImplicit false

namespace I8086
namespace Labels

/-- The other name that the assembler has for a conditional jump. -/
def alternativeName? : Operation → Option String
  | .je => some "jz" | .jne => some "jnz"
  | .jl => some "jnge" | .jnl => some "jge" | .jle => some "jng" | .jg => some "jnle"
  | .jb => some "jnae" | .jnb => some "jae" | .jbe => some "jna" | .ja => some "jnbe"
  | .jp => some "jpe" | .jnp => some "jpo"
  | .loopz => some "loope" | .loopnz => some "loopne"
  | _ => none

def labelName (address : UInt32) : String :=
  "label__" ++ Text.decimal address.toNat

/-- Where a relative jump leads. -/
def target? (i : Instruction) : Option UInt32 :=
  match i.operands.first with
  | some (.relative distance) => some (i.address + distance.toUInt32)
  | _ => none

/-- The addresses at which a line starts; `prefixed` says that a prefix came just before. -/
def startsFrom (prefixed : Bool) : List Instruction → List UInt32
  | [] => []
  | i :: rest =>
    if prefixed then startsFrom i.isPrefix rest
    else i.address :: startsFrom i.isPrefix rest

/-- The addresses that get a label: the targets of jumps at which a line starts. -/
def labels (instructions : List Instruction) : Std.HashSet UInt32 :=
  let starts := Std.HashSet.ofList (startsFrom false instructions)
  Std.HashSet.ofList ((instructions.filterMap target?).filter starts.contains)

/-- The line of an instruction that is not a prefix. -/
def line (labels : Std.HashSet UInt32) (i : Instruction) : Except Fault String :=
  i.text.map fun plain =>
    match target? i with
    | none => plain
    | some target =>
      let jump :=
        if labels.contains target then i.operation.mnemonic ++ " " ++ labelName target else plain
      match alternativeName? i.operation with
      | some name => jump ++ " ; " ++ name
      | none => jump

/-- The lines of a sequence of instructions; `prefixed` says that a prefix came just before. -/
def linesFrom (labels : Std.HashSet UInt32) (prefixed : Bool) :
    List Instruction → List (Except Fault String)
  | [] => []
  | i :: rest =>
    let label :=
      if labels.contains i.address && !prefixed then [.ok (labelName i.address ++ ":")] else []
    let own := if i.isPrefix then [] else [line labels i]
    label ++ own ++ linesFrom labels i.isPrefix rest

/-- The labeled listing of a sequence of instructions. -/
def lines (instructions : List Instruction) : List (Except Fault String) :=
  linesFrom (labels instructions) false instructions

def write (o : Output) (instructions : List Instruction) : Option Output.Stop × Output :=
  o.writeLines (lines instructions)

end Labels
end I8086
