import AsmScan.SortedTable

/-! Processors and the names of their instructions. -/
namespace AsmScan

inductive Cpu where
  | mos6502
  | wdc65816
  | wdc65c02
  | wdc65sc02
deriving DecidableEq

namespace Cpu

instance : Inhabited Cpu := ⟨.mos6502⟩

/-- All processors, in the order of their names. -/
def all : List Cpu := [.mos6502, .wdc65816, .wdc65c02, .wdc65sc02]

def name : Cpu → String
  | .mos6502 => "6502"
  | .wdc65816 => "65816"
  | .wdc65c02 => "65C02"
  | .wdc65sc02 => "65SC02"

/-- The processor of a name, in either case. -/
def ofName? (name : String) : Option Cpu :=
  (SortedTable.searchAnyCase (SortedTable.keys (all.map Cpu.name)) name).bind
    fun place => all[place]?

/-- The instructions of the processor in dictionary order, each with its name in upper case. -/
def mnemonics : Cpu → List String
  | .mos6502 =>
    ["ADC", "AND", "ASL", "BCC", "BCS", "BEQ", "BIT", "BMI", "BNE", "BPL", "BRK", "BVC", "BVS",
     "CLC", "CLD", "CLI", "CLV", "CMP", "CPX", "CPY", "DEC", "DEX", "DEY", "EOR", "INC", "INX",
     "INY", "JMP", "JSR", "LDA", "LDX", "LDY", "LSR", "NOP", "ORA", "PHA", "PHP", "PLA", "PLP",
     "ROL", "ROR", "RTI", "RTS", "SBC", "SEC", "SED", "SEI", "STA", "STX", "STY", "TAX", "TAY",
     "TSX", "TXA", "TXS", "TYA"]
  | .wdc65816 =>
    ["ADC", "AND", "ASL", "BCC", "BCS", "BEQ", "BIT", "BMI", "BNE", "BPL", "BRA", "BRK", "BRL",
     "BVC", "BVS", "CLC", "CLD", "CLI", "CLV", "CMP", "COP", "CPX", "CPY", "DEC", "DEX", "DEY",
     "EOR", "INC", "INX", "INY", "JML", "JMP", "JSL", "JSR", "LDA", "LDX", "LDY", "LSR", "MVN",
     "MVP", "NOP", "ORA", "PEA", "PEI", "PER", "PHA", "PHB", "PHD", "PHK", "PHP", "PHX", "PHY",
     "PLA", "PLB", "PLD", "PLP", "PLX", "PLY", "REP", "ROL", "ROR", "RTI", "RTL", "RTS", "SBC",
     "SEC", "SED", "SEI", "SEP", "STA", "STP", "STX", "STY", "STZ", "TAX", "TAY", "TCD", "TCS",
     "TDC", "TRB", "TSB", "TSC", "TSX", "TXA", "TXS", "TXY", "TYA", "TYX", "WAI", "WDM", "XBA",
     "XCE"]
  | .wdc65c02 =>
    ["ADC", "AND", "ASL", "BBR0", "BBR1", "BBR2", "BBR3", "BBR4", "BBR5", "BBR6", "BBR7", "BBS0",
     "BBS1", "BBS2", "BBS3", "BBS4", "BBS5", "BBS6", "BBS7", "BCC", "BCS", "BEQ", "BIT", "BMI",
     "BNE", "BPL", "BRA", "BRK", "BVC", "BVS", "CLC", "CLD", "CLI", "CLV", "CMP", "CPX", "CPY",
     "DEC", "DEX", "DEY", "EOR", "INC", "INX", "INY", "JMP", "JSR", "LDA", "LDX", "LDY", "LSR",
     "NOP", "ORA", "PHA", "PHP", "PHX", "PHY", "PLA", "PLP", "PLX", "PLY", "RMB0", "RMB1", "RMB2",
     "RMB3", "RMB4", "RMB5", "RMB6", "RMB7", "ROL", "ROR", "RTI", "RTS", "SBC", "SEC", "SED", "SEI",
     "SMB0", "SMB1", "SMB2", "SMB3", "SMB4", "SMB5", "SMB6", "SMB7", "STA", "STX", "STY", "STZ",
     "TAX", "TAY", "TRB", "TSB", "TSX", "TXA", "TXS", "TYA"]
  | .wdc65sc02 =>
    ["ADC", "AND", "ASL", "BCC", "BCS", "BEQ", "BIT", "BMI", "BNE", "BPL", "BRA", "BRK", "BVC",
     "BVS", "CLC", "CLD", "CLI", "CLV", "CMP", "CPX", "CPY", "DEC", "DEX", "DEY", "EOR", "INC",
     "INX", "INY", "JMP", "JSR", "LDA", "LDX", "LDY", "LSR", "NOP", "ORA", "PHA", "PHP", "PHX",
     "PHY", "PLA", "PLP", "PLX", "PLY", "ROL", "ROR", "RTI", "RTS", "SBC", "SEC", "SED", "SEI",
     "STA", "STX", "STY", "STZ", "TAX", "TAY", "TRB", "TSB", "TSX", "TXA", "TXS", "TYA"]

/-- The table that mnemonics are looked up in. -/
def mnemonicKeys : Cpu → Array (List UInt8)
  | .mos6502 => SortedTable.keys (mnemonics .mos6502)
  | .wdc65816 => SortedTable.keys (mnemonics .wdc65816)
  | .wdc65c02 => SortedTable.keys (mnemonics .wdc65c02)
  | .wdc65sc02 => SortedTable.keys (mnemonics .wdc65sc02)

/-- Whether a word in upper case is an instruction of the processor. All instructions have three or
four letters, so that other words need no search. -/
def isMnemonic (cpu : Cpu) (word : List UInt8) : Bool :=
  3 ≤ word.length && word.length ≤ 4 && (SortedTable.search cpu.mnemonicKeys word).isSome

end Cpu
end AsmScan
