/-!
# Registers, labels and operands

What x86-64 instructions work on, and how it is written in AT&T assembly. Labels
are values and not texts: which labels are equal does not hang on their spelling.
-/

namespace ScriptLang.Assembly

inductive Register where
  | rax | rcx | rdx | rsi | rdi | rsp | rbp | r8 | r9 | r10 | r11
  deriving DecidableEq

inductive FloatRegister where
  | xmm0 | xmm1 | xmm2 | xmm3 | xmm4 | xmm5 | xmm6 | xmm7
  deriving DecidableEq

/-- The condition codes of jumps and of `set`. -/
inductive Condition where
  | e | ne | l | le | g | ge | a | ae | p | np | s | o
  deriving DecidableEq

/-- What a numbered label marks. Labels of one statement or operator share a number. -/
inductive Mark where
  | divide | divideEnd
  | otherwise | endIf
  | whileStart | whileEnd
  | doStart | doCondition | doEnd
  | forStart | forNext | forEnd
  | topEnd
  deriving DecidableEq

/-- The faults a running program ends with. -/
inductive Trap where
  | divisionByZero | moduloByZero | zeroStep | negativeStep
  deriving DecidableEq

/-- The format strings for printing. -/
inductive Format where
  | integer | float | string | range
  deriving DecidableEq

inductive Label where
  | numbered (mark : Mark) (number : Nat)
  | epilogue (symbol : String)
  | trap (trap : Trap)
  | trapMessage (trap : Trap)
  | string (index : Nat)
  | float (index : Nat)
  | format (format : Format) (newline : Bool)
  | newline
  | truth (value : Bool)
  | cell (name : String)
  | symbol (name : String)
  | named (text : String)
  deriving DecidableEq

inductive Memory where
  /-- Bytes from the frame pointer. -/
  | frame (offset : Int)
  /-- Bytes from a label. -/
  | data (label : Label) (offset : Nat)
  | pointedBy (base : Register)
  /-- The address of a symbol of another object. -/
  | imported (name : String)
  deriving DecidableEq

inductive Operand where
  | immediate (value : Int)
  | register (register : Register)
  | memory (memory : Memory)
  deriving DecidableEq

namespace Register

/-- All 64 bits. -/
def quad : Register → String
  | rax => "%rax"
  | rcx => "%rcx"
  | rdx => "%rdx"
  | rsi => "%rsi"
  | rdi => "%rdi"
  | rsp => "%rsp"
  | rbp => "%rbp"
  | r8 => "%r8"
  | r9 => "%r9"
  | r10 => "%r10"
  | r11 => "%r11"

/-- The low 32 bits. -/
def long : Register → String
  | rax => "%eax"
  | rcx => "%ecx"
  | rdx => "%edx"
  | rsi => "%esi"
  | rdi => "%edi"
  | rsp => "%esp"
  | rbp => "%ebp"
  | r8 => "%r8d"
  | r9 => "%r9d"
  | r10 => "%r10d"
  | r11 => "%r11d"

/-- The low byte. -/
def byte : Register → String
  | rax => "%al"
  | rcx => "%cl"
  | rdx => "%dl"
  | rsi => "%sil"
  | rdi => "%dil"
  | rsp => "%spl"
  | rbp => "%bpl"
  | r8 => "%r8b"
  | r9 => "%r9b"
  | r10 => "%r10b"
  | r11 => "%r11b"

end Register

def FloatRegister.text : FloatRegister → String
  | xmm0 => "%xmm0"
  | xmm1 => "%xmm1"
  | xmm2 => "%xmm2"
  | xmm3 => "%xmm3"
  | xmm4 => "%xmm4"
  | xmm5 => "%xmm5"
  | xmm6 => "%xmm6"
  | xmm7 => "%xmm7"

def Condition.suffix : Condition → String
  | e => "e"
  | ne => "ne"
  | l => "l"
  | le => "le"
  | g => "g"
  | ge => "ge"
  | a => "a"
  | ae => "ae"
  | p => "p"
  | np => "np"
  | s => "s"
  | o => "o"

def Mark.label (number : Nat) : Mark → String
  | divide => s!".Ldiv_{number}"
  | divideEnd => s!".Ldiv_{number}_end"
  | otherwise => s!".Lelse_{number}"
  | endIf => s!".Lendif_{number}"
  | whileStart => s!".Lwhile_{number}_start"
  | whileEnd => s!".Lwhile_{number}_end"
  | doStart => s!".Ldo_{number}_start"
  | doCondition => s!".Ldo_{number}_cond"
  | doEnd => s!".Ldo_{number}_end"
  | forStart => s!".Lfor_{number}_start"
  | forNext => s!".Lfor_{number}_next"
  | forEnd => s!".Lfor_{number}_end"
  | topEnd => s!".Ltop_{number}_end"

namespace Trap

def all : List Trap := [divisionByZero, moduloByZero, zeroStep, negativeStep]

def label : Trap → String
  | divisionByZero => ".Lrt_division_by_zero"
  | moduloByZero => ".Lrt_modulo_by_zero"
  | zeroStep => ".Lrt_zero_step"
  | negativeStep => ".Lrt_negative_step"

def message : Trap → String
  | divisionByZero => "DivisionByZero: division by zero"
  | moduloByZero => "ModuloByZero: modulo by zero"
  | zeroStep => "ZeroStep: range step of zero"
  | negativeStep => "NegativeStep: negative range step"

end Trap

namespace Format

def all : List Format := [integer, float, string, range]

def label : Format → String
  | integer => ".Lfmt_int"
  | float => ".Lfmt_float"
  | string => ".Lfmt_str"
  | range => ".Lfmt_range"

def directive : Format → String
  | integer => "%ld"
  | float => "%.15g"
  | string => "%s"
  | range => "%ld..%ld"

end Format

def Label.text : Label → String
  | numbered mark n => mark.label n
  | epilogue s => s!".L{s}_epilogue"
  | trap t => t.label
  | trapMessage t => t.label ++ "_msg"
  | string i => s!".LS{i}"
  | float i => s!".LF{i}"
  | format f withNewline => if withNewline then f.label ++ "_nl" else f.label
  | newline => ".Lfmt_nl"
  | truth b => if b then ".Lstr_true" else ".Lstr_false"
  | cell name => s!"glob_{name}"
  | symbol name => name
  | named t => t

def Memory.text : Memory → String
  | frame offset => s!"{offset}(%rbp)"
  | data label 0 => s!"{label.text}(%rip)"
  | data label offset => s!"{label.text}+{offset}(%rip)"
  | pointedBy base => s!"({base.quad})"
  | imported name => s!"{name}@GOTPCREL(%rip)"

namespace Operand

/-- The operand of an instruction on 64 bits. -/
def quad : Operand → String
  | immediate value => s!"${value}"
  | register r => r.quad
  | memory m => m.text

/-- The operand of an instruction on bytes. -/
def byte : Operand → String
  | immediate value => s!"${value}"
  | register r => r.byte
  | memory m => m.text

end Operand

end ScriptLang.Assembly
