import I8086.Encoding.Match

/-!
# The instruction set

Every encoding that is decoded, as a format. The formats are tried in order and the first one that
describes the bytes wins, so `nop` stands before the `xchg` that shares its byte.

The comments give the bytes of an encoding; a question mark stands behind bytes that depend on the
fields before them.
-/

set_option autoImplicit false

namespace I8086
namespace Table

/-! ## Fields -/

def lit (bits : UInt8) (value : UInt32) : Field := .literal bits value

def d : Field := .stream .d 1
def s : Field := .stream .s 1
def w : Field := .stream .w 1
def v : Field := .stream .v 1
def z : Field := .stream .z 1
def mod : Field := .stream .mod 2
def reg : Field := .stream .reg 3
def rm : Field := .stream .rm 3
def sr : Field := .stream .sr 2

/-- A displacement byte or word follows. -/
def disp : Field := .implicit .hasDisp 1
/-- The displacement is a word. -/
def dispWide : Field := .implicit .dispAlwaysWide 1
/-- A data byte or word follows. -/
def data : Field := .implicit .hasData 1
/-- The data is a word if `w` is set and `s` is not. -/
def dataIfWide : Field := .implicit .wideData 1
/-- The displacement is a jump distance. -/
def relative : Field := .implicit .relative 1
def rmWide : Field := .implicit .rmAlwaysWide 1
def far : Field := .implicit .far 1

def fixedW (value : UInt32) : Field := .implicit .w value
def fixedD (value : UInt32) : Field := .implicit .d value
def fixedS (value : UInt32) : Field := .implicit .s value
def fixedReg (value : UInt32) : Field := .implicit .reg value
def fixedMod (value : UInt32) : Field := .implicit .mod value
def fixedRm (value : UInt32) : Field := .implicit .rm value

/-! ## Shapes that several operations share -/

/-- Three encodings: register with register or memory, immediate to register or memory, immediate
to accumulator.
`[opcode|d|w] [mod|reg|r/m] [disp?]`,
`[100000|s|w] [mod|pattern|r/m] [disp?] [data]` and
`[opcode|w] [data]`. -/
def binary (operation : Operation) (opcode pattern accumulator : UInt32) : List Format := [
  ⟨operation, [lit 6 opcode, d, w, mod, reg, rm]⟩,
  ⟨operation, [lit 6 0b100000, s, w, mod, lit 3 pattern, rm, data, dataIfWide]⟩,
  ⟨operation, [lit 7 accumulator, w, data, dataIfWide, fixedReg 0, fixedD 1]⟩]

/-- `[1111011|w] [mod|pattern|r/m] [disp?]` -/
def unary (operation : Operation) (pattern : UInt32) (more : List Field) : Format :=
  ⟨operation, [lit 7 0b1111011, w, mod, lit 3 pattern, rm] ++ more⟩

/-- `[110100|v|w] [mod|pattern|r/m] [disp?]` -/
def shift (operation : Operation) (pattern : UInt32) : Format :=
  ⟨operation, [lit 6 0b110100, v, w, mod, lit 3 pattern, rm]⟩

/-- `[opcode] [distance]` -/
def jump (operation : Operation) (opcode : UInt32) : Format :=
  ⟨operation, [lit 8 opcode, disp, relative]⟩

/-- An encoding of a single fixed byte. -/
def fixed (operation : Operation) (opcode : UInt32) : Format :=
  ⟨operation, [lit 8 opcode]⟩

/-! ## Data transfer -/

def dataTransfer : List Format := [
  -- mov: [100010|d|w] [mod|reg|r/m] [disp?]
  ⟨.mov, [lit 6 0b100010, d, w, mod, reg, rm]⟩,
  -- mov: [1100011|w] [mod|000|r/m] [disp?] [data]
  ⟨.mov, [lit 7 0b1100011, w, mod, lit 3 0b000, rm, data, dataIfWide, fixedD 0]⟩,
  -- mov: [1011|w|reg] [data]
  ⟨.mov, [lit 4 0b1011, w, reg, data, dataIfWide, fixedD 1]⟩,
  -- mov: [1010000|w] [address]
  ⟨.mov, [lit 7 0b1010000, w, disp, dispWide, fixedReg 0, fixedMod 0b00, fixedRm 0b110, fixedD 1]⟩,
  -- mov: [1010001|w] [address]
  ⟨.mov, [lit 7 0b1010001, w, disp, dispWide, fixedReg 0, fixedMod 0b00, fixedRm 0b110, fixedD 0]⟩,
  -- mov: [100011|d|0] [mod|0|sr|r/m] [disp?]
  ⟨.mov, [lit 6 0b100011, d, lit 1 0b0, mod, lit 1 0b0, sr, rm, fixedW 1]⟩,
  -- push: [11111111] [mod|110|r/m] [disp?]
  ⟨.push, [lit 8 0b11111111, mod, lit 3 0b110, rm, fixedW 1]⟩,
  -- push: [01010|reg]
  ⟨.push, [lit 5 0b01010, reg, fixedW 1]⟩,
  -- push: [000|sr|110]
  ⟨.push, [lit 3 0b000, sr, lit 3 0b110, fixedW 1]⟩,
  -- pop: [10001111] [mod|000|r/m] [disp?]
  ⟨.pop, [lit 8 0b10001111, mod, lit 3 0b000, rm, fixedW 1]⟩,
  -- pop: [01011|reg]
  ⟨.pop, [lit 5 0b01011, reg, fixedW 1]⟩,
  -- pop: [000|sr|111]
  ⟨.pop, [lit 3 0b000, sr, lit 3 0b111, fixedW 1]⟩,
  -- xchg: [1000011|w] [mod|reg|r/m] [disp?]
  ⟨.xchg, [lit 7 0b1000011, w, mod, reg, rm, fixedD 1]⟩,
  -- nop, which is xchg ax, ax
  fixed .nop 0b10010000,
  -- xchg: [10010|reg]
  ⟨.xchg, [lit 5 0b10010, reg, fixedMod 0b11, fixedW 1, fixedRm 0]⟩,
  -- in: [1110010|w] [number]
  ⟨.input, [lit 7 0b1110010, w, data, fixedReg 0, fixedD 1]⟩,
  -- in: [1110110|w]
  ⟨.input, [lit 7 0b1110110, w, fixedReg 0, fixedD 1, fixedMod 0b11, fixedRm 0b010, rmWide]⟩,
  -- out: [1110011|w] [number]
  ⟨.output, [lit 7 0b1110011, w, data, fixedReg 0, fixedD 0]⟩,
  -- out: [1110111|w]
  ⟨.output, [lit 7 0b1110111, w, fixedReg 0, fixedD 0, fixedMod 0b11, fixedRm 0b010, rmWide]⟩,
  fixed .xlat 0b11010111,
  -- lea, lds, les: [opcode] [mod|reg|r/m] [disp?]
  ⟨.lea, [lit 8 0b10001101, mod, reg, rm, fixedD 1, fixedW 1]⟩,
  ⟨.lds, [lit 8 0b11000101, mod, reg, rm, fixedD 1, fixedW 1]⟩,
  ⟨.les, [lit 8 0b11000100, mod, reg, rm, fixedD 1, fixedW 1]⟩,
  fixed .lahf 0b10011111,
  fixed .sahf 0b10011110,
  fixed .pushf 0b10011100,
  fixed .popf 0b10011101]

/-! ## Arithmetic -/

def arithmetic : List Format :=
  binary .add 0b000000 0b000 0b0000010 ++
  binary .adc 0b000100 0b010 0b0001010 ++
  [ -- inc: [1111111|w] [mod|000|r/m] [disp?]
    ⟨.inc, [lit 7 0b1111111, w, mod, lit 3 0b000, rm]⟩,
    -- inc: [01000|reg]
    ⟨.inc, [lit 5 0b01000, reg, fixedW 1]⟩,
    fixed .aaa 0b00110111,
    fixed .daa 0b00100111] ++
  binary .sub 0b001010 0b101 0b0010110 ++
  binary .sbb 0b000110 0b011 0b0001110 ++
  [ -- dec: [1111111|w] [mod|001|r/m] [disp?]
    ⟨.dec, [lit 7 0b1111111, w, mod, lit 3 0b001, rm]⟩,
    -- dec: [01001|reg]
    ⟨.dec, [lit 5 0b01001, reg, fixedW 1]⟩,
    unary .neg 0b011 []] ++
  binary .cmp 0b001110 0b111 0b0011110 ++
  [ fixed .aas 0b00111111,
    fixed .das 0b00101111,
    unary .mul 0b100 [fixedS 0],
    unary .imul 0b101 [fixedS 1],
    -- aam: [11010100] [00001010]
    ⟨.aam, [lit 8 0b11010100, lit 8 0b00001010]⟩,
    unary .div 0b110 [fixedS 0],
    unary .idiv 0b111 [fixedS 1],
    -- aad: [11010101] [00001010]
    ⟨.aad, [lit 8 0b11010101, lit 8 0b00001010]⟩,
    fixed .cbw 0b10011000,
    fixed .cwd 0b10011001]

/-! ## Logic -/

def logic : List Format :=
  [ unary .not 0b010 [],
    shift .shl 0b100,
    shift .shr 0b101,
    shift .sar 0b111,
    shift .rol 0b000,
    shift .ror 0b001,
    shift .rcl 0b010,
    shift .rcr 0b011] ++
  binary .and 0b001000 0b100 0b0010010 ++
  [ -- test: [1000010|w] [mod|reg|r/m] [disp?]
    ⟨.test, [lit 7 0b1000010, w, mod, reg, rm]⟩,
    -- test: [1111011|w] [mod|000|r/m] [disp?] [data]
    unary .test 0b000 [data, dataIfWide],
    -- test: [1010100|w] [data]
    ⟨.test, [lit 7 0b1010100, w, data, dataIfWide, fixedReg 0, fixedD 1]⟩] ++
  binary .or 0b000010 0b001 0b0000110 ++
  binary .xor 0b001100 0b110 0b0011010

/-! ## Strings -/

def strings : List Format := [
  -- rep: [1111001|z]
  ⟨.rep, [lit 7 0b1111001, z]⟩,
  ⟨.movs, [lit 7 0b1010010, w]⟩,
  ⟨.cmps, [lit 7 0b1010011, w]⟩,
  ⟨.scas, [lit 7 0b1010111, w]⟩,
  ⟨.lods, [lit 7 0b1010110, w]⟩,
  ⟨.stos, [lit 7 0b1010101, w]⟩]

/-! ## Control transfer -/

def controlTransfer : List Format := [
  -- call: [11101000] [distance]
  ⟨.call, [lit 8 0b11101000, disp, dispWide, relative]⟩,
  -- call: [11111111] [mod|010|r/m] [disp?]
  ⟨.call, [lit 8 0b11111111, mod, lit 3 0b010, rm, fixedW 1]⟩,
  -- call: [10011010] [offset] [segment]
  ⟨.call, [lit 8 0b10011010, disp, dispWide, data, dataIfWide, fixedW 1, far]⟩,
  -- call: [11111111] [mod|011|r/m] [disp?]
  ⟨.call, [lit 8 0b11111111, mod, lit 3 0b011, rm, fixedW 1, far]⟩,
  -- jmp: [11101001] [distance]
  ⟨.jmp, [lit 8 0b11101001, disp, dispWide, relative]⟩,
  -- jmp: [11101011] [short distance]
  ⟨.jmp, [lit 8 0b11101011, disp, relative]⟩,
  -- jmp: [11111111] [mod|100|r/m] [disp?]
  ⟨.jmp, [lit 8 0b11111111, mod, lit 3 0b100, rm, fixedW 1]⟩,
  -- jmp: [11101010] [offset] [segment]
  ⟨.jmp, [lit 8 0b11101010, disp, dispWide, data, dataIfWide, fixedW 1, far]⟩,
  -- jmp: [11111111] [mod|101|r/m] [disp?]
  ⟨.jmp, [lit 8 0b11111111, mod, lit 3 0b101, rm, fixedW 1, far]⟩,
  fixed .ret 0b11000011,
  -- ret: [11000010] [data]
  ⟨.ret, [lit 8 0b11000010, data, dataIfWide, fixedW 1]⟩,
  fixed .retf 0b11001011,
  -- retf: [11001010] [data]
  ⟨.retf, [lit 8 0b11001010, data, dataIfWide, fixedW 1]⟩,
  jump .je 0b01110100,
  jump .jl 0b01111100,
  jump .jle 0b01111110,
  jump .jb 0b01110010,
  jump .jbe 0b01110110,
  jump .jp 0b01111010,
  jump .jo 0b01110000,
  jump .js 0b01111000,
  jump .jne 0b01110101,
  jump .jnl 0b01111101,
  jump .jg 0b01111111,
  jump .jnb 0b01110011,
  jump .ja 0b01110111,
  jump .jnp 0b01111011,
  jump .jno 0b01110001,
  jump .jns 0b01111001,
  jump .loop 0b11100010,
  jump .loopz 0b11100001,
  jump .loopnz 0b11100000,
  jump .jcxz 0b11100011]

/-! ## Interrupts -/

def interrupts : List Format := [
  -- int: [11001101] [number]
  ⟨.int, [lit 8 0b11001101, data]⟩,
  fixed .int3 0b11001100,
  fixed .into 0b11001110,
  fixed .iret 0b11001111]

/-! ## Processor control and prefixes -/

def processorControl : List Format := [
  fixed .clc 0b11111000,
  fixed .cmc 0b11110101,
  fixed .stc 0b11111001,
  fixed .cld 0b11111100,
  fixed .std 0b11111101,
  fixed .cli 0b11111010,
  fixed .sti 0b11111011,
  fixed .hlt 0b11110100,
  fixed .wait 0b10011011,
  -- esc: [11011|xxx] [mod|yyy|r/m] [disp?], the external opcode is xxxyyy
  ⟨.esc, [lit 5 0b11011, ⟨.escape, 3, 3, 0⟩, mod, ⟨.escape, 3, 0, 0⟩, rm, fixedD 1]⟩]

def prefixes : List Format := [
  fixed .lock 0b11110000,
  -- segment: [001|sr|110]
  ⟨.segment, [lit 3 0b001, sr, lit 3 0b110, fixedD 1]⟩]

/-- All encodings, in the order in which they are tried. -/
def formats : List Format :=
  dataTransfer ++ arithmetic ++ logic ++ strings ++ controlTransfer ++ interrupts ++
    processorControl ++ prefixes

theorem all_readsFirst : formats.all Format.readsFirst = true := by
  decide +kernel

/-- Every encoding starts with bits of the stream. -/
theorem readsFirst_of_mem {format : Format} (h : format ∈ formats) : format.readsFirst = true :=
  List.all_eq_true.1 all_readsFirst format h

end Table
end I8086
