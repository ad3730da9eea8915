/-!
# Operations

The operations of the processor. Every operation has a one byte code; the codes that name no
operation are kept as `other`, so that `ofCode` loses nothing.
-/

set_option autoImplicit false

namespace I8086

/-- What an instruction does. `blank` is the operation of an instruction that was not decoded. -/
inductive Operation
  | blank
  -- data transfer
  | mov | push | pop | xchg | input | output | xlat | lea | lds | les | lahf | sahf | pushf | popf
  -- arithmetic
  | add | adc | inc | aaa | daa | sub | sbb | dec | neg | cmp | aas | das | mul | imul | aam | div
  | idiv | aad | cbw | cwd
  -- logic
  | not | shl | shr | sar | rol | ror | rcl | rcr | and | test | or | xor
  -- strings
  | rep | movs | cmps | scas | lods | stos
  -- control transfer
  | call | jmp | ret | retf
  | je | jl | jle | jb | jbe | jp | jo | js | jne | jnl | jg | jnb | ja | jnp | jno | jns
  | loop | loopz | loopnz | jcxz
  -- interrupts
  | int | int3 | into | iret
  -- processor control
  | clc | cmc | stc | cld | std | cli | sti | hlt | wait | nop | esc
  -- the remaining prefixes
  | lock | segment
  /-- A code without an operation. -/
  | other (code : UInt8)
  deriving DecidableEq, Repr

namespace Operation

/-- The operations that have a name, in the order of their codes. -/
def named : List Operation := [
  blank,
  mov, push, pop, xchg, input, output, xlat, lea, lds, les, lahf, sahf, pushf, popf,
  add, adc, inc, aaa, daa, sub, sbb, dec, neg, cmp, aas, das, mul, imul, aam, div,
  idiv, aad, cbw, cwd,
  not, shl, shr, sar, rol, ror, rcl, rcr, and, test, or, xor,
  rep, movs, cmps, scas, lods, stos,
  call, jmp, ret, retf,
  je, jl, jle, jb, jbe, jp, jo, js, jne, jnl, jg, jnb, ja, jnp, jno, jns,
  loop, loopz, loopnz, jcxz,
  int, int3, into, iret,
  clc, cmc, stc, cld, std, cli, sti, hlt, wait, nop, esc,
  lock, segment]

/-- The operation of a code. -/
def ofCode (code : UInt8) : Operation :=
  named[code.toNat]?.getD (other code)

/-- The code of an operation: its place among the named ones. -/
def code : Operation → UInt8
  | other code => code
  | op => op.ctorIdx.toUInt8

/-- The mnemonic, empty for `blank`. -/
def mnemonic : Operation → String
  | blank => ""
  | mov => "mov" | push => "push" | pop => "pop" | xchg => "xchg" | input => "in"
  | output => "out" | xlat => "xlat" | lea => "lea" | lds => "lds" | les => "les"
  | lahf => "lahf" | sahf => "sahf" | pushf => "pushf" | popf => "popf"
  | add => "add" | adc => "adc" | inc => "inc" | aaa => "aaa" | daa => "daa" | sub => "sub"
  | sbb => "sbb" | dec => "dec" | neg => "neg" | cmp => "cmp" | aas => "aas" | das => "das"
  | mul => "mul" | imul => "imul" | aam => "aam" | div => "div" | idiv => "idiv" | aad => "aad"
  | cbw => "cbw" | cwd => "cwd"
  | not => "not" | shl => "shl" | shr => "shr" | sar => "sar" | rol => "rol" | ror => "ror"
  | rcl => "rcl" | rcr => "rcr" | and => "and" | test => "test" | or => "or" | xor => "xor"
  | rep => "rep" | movs => "movs" | cmps => "cmps" | scas => "scas" | lods => "lods"
  | stos => "stos"
  | call => "call" | jmp => "jmp" | ret => "ret" | retf => "retf"
  | je => "je" | jl => "jl" | jle => "jle" | jb => "jb" | jbe => "jbe" | jp => "jp" | jo => "jo"
  | js => "js" | jne => "jne" | jnl => "jnl" | jg => "jg" | jnb => "jnb" | ja => "ja"
  | jnp => "jnp" | jno => "jno" | jns => "jns"
  | loop => "loop" | loopz => "loopz" | loopnz => "loopnz" | jcxz => "jcxz"
  | int => "int" | int3 => "int3" | into => "into" | iret => "iret"
  | clc => "clc" | cmc => "cmc" | stc => "stc" | cld => "cld" | std => "std" | cli => "cli"
  | sti => "sti" | hlt => "hlt" | wait => "wait" | nop => "nop" | esc => "esc"
  | lock => "lock" | segment => "segment"
  | other _ => "unknown"

/-- Whether the operation only modifies the instruction that follows it. -/
def isPrefix : Operation → Bool
  | lock | rep | segment => true
  | _ => false

/-- Whether the mnemonic is followed by the letter of its operand size. -/
def isString : Operation → Bool
  | movs | cmps | scas | lods | stos => true
  | _ => false

end Operation
end I8086
