/-! Directives: the dotted words that tell the assembler what to do.

Each directive is named by its word without the dot, in upper case. -/
namespace AsmScan

inductive Directive where
  | A16 | A8 | ADDR | ALIGN | ASCIIZ | ASSERT | AUTOIMPORT | BLANK | BSS | BYTE | CASE | CHARMAP
  | CODE | CONCAT | CONDES | CONST | CONSTRUCTOR | CPU | DATA | DBG | DBYT | DEBUGINFO | DEFINE
  | DEFINED | DESTRUCTOR | DWORD | ELSE | ELSEIF | END | ENDIF | ENDMACRO | ENDPROC | ENDREP
  | ENDSCOPE | ENDSTRUCT | ERROR | EXITMACRO | EXPORT | EXPORTZP | FARADDR | FEATURE | FILEOPT
  | FORCEIMPORT | FORCEWORD | GLOBAL | GLOBALZP | I16 | I8 | IF | IFBLANK | IFCONST | IFDEF
  | IFNBLANK | IFNCONST | IFNDEF | IFNREF | IFP02 | IFP816 | IFPC02 | IFPSC02 | IFREF | IMPORT
  | IMPORTZP | INCBIN | INCLUDE | LEFT | LINECONT | LIST | LISTBYTES | LOCAL | LOCALCHAR
  | MACPACK | MACRO | MATCH | MID | NULL | ORG | OUT | P02 | P816 | PAGELENGTH | PARAMCOUNT
  | PC02 | POPSEG | PROC | PSC02 | PUSHSEG | REFERENCED | RELOC | REPEAT | RES | RIGHT | RODATA
  | SCOPE | SEGMENT | SETCPU | SMART | STRAT | STRING | STRLEN | STRUCT | SUNPLUS | TAG | TCOUNT
  | TIME | UNION | VERSION | WARNING | WORD | XMATCH | ZEROPAGE
deriving DecidableEq

namespace Directive

/-- All directives, in the order of their names. -/
def all : List Directive :=
  [.A16, .A8, .ADDR, .ALIGN, .ASCIIZ, .ASSERT, .AUTOIMPORT, .BLANK, .BSS, .BYTE, .CASE, .CHARMAP,
   .CODE, .CONCAT, .CONDES, .CONST, .CONSTRUCTOR, .CPU, .DATA, .DBG, .DBYT, .DEBUGINFO, .DEFINE,
   .DEFINED, .DESTRUCTOR, .DWORD, .ELSE, .ELSEIF, .END, .ENDIF, .ENDMACRO, .ENDPROC, .ENDREP,
   .ENDSCOPE, .ENDSTRUCT, .ERROR, .EXITMACRO, .EXPORT, .EXPORTZP, .FARADDR, .FEATURE, .FILEOPT,
   .FORCEIMPORT, .FORCEWORD, .GLOBAL, .GLOBALZP, .I16, .I8, .IF, .IFBLANK, .IFCONST, .IFDEF,
   .IFNBLANK, .IFNCONST, .IFNDEF, .IFNREF, .IFP02, .IFP816, .IFPC02, .IFPSC02, .IFREF, .IMPORT,
   .IMPORTZP, .INCBIN, .INCLUDE, .LEFT, .LINECONT, .LIST, .LISTBYTES, .LOCAL, .LOCALCHAR,
   .MACPACK, .MACRO, .MATCH, .MID, .NULL, .ORG, .OUT, .P02, .P816, .PAGELENGTH, .PARAMCOUNT,
   .PC02, .POPSEG, .PROC, .PSC02, .PUSHSEG, .REFERENCED, .RELOC, .REPEAT, .RES, .RIGHT, .RODATA,
   .SCOPE, .SEGMENT, .SETCPU, .SMART, .STRAT, .STRING, .STRLEN, .STRUCT, .SUNPLUS, .TAG, .TCOUNT,
   .TIME, .UNION, .VERSION, .WARNING, .WORD, .XMATCH, .ZEROPAGE]

/-- The word that stands for the directive in source text. -/
def name : Directive → String
  | .A16 => ".A16"
  | .A8 => ".A8"
  | .ADDR => ".ADDR"
  | .ALIGN => ".ALIGN"
  | .ASCIIZ => ".ASCIIZ"
  | .ASSERT => ".ASSERT"
  | .AUTOIMPORT => ".AUTOIMPORT"
  | .BLANK => ".BLANK"
  | .BSS => ".BSS"
  | .BYTE => ".BYTE"
  | .CASE => ".CASE"
  | .CHARMAP => ".CHARMAP"
  | .CODE => ".CODE"
  | .CONCAT => ".CONCAT"
  | .CONDES => ".CONDES"
  | .CONST => ".CONST"
  | .CONSTRUCTOR => ".CONSTRUCTOR"
  | .CPU => ".CPU"
  | .DATA => ".DATA"
  | .DBG => ".DBG"
  | .DBYT => ".DBYT"
  | .DEBUGINFO => ".DEBUGINFO"
  | .DEFINE => ".DEFINE"
  | .DEFINED => ".DEFINED"
  | .DESTRUCTOR => ".DESTRUCTOR"
  | .DWORD => ".DWORD"
  | .ELSE => ".ELSE"
  | .ELSEIF => ".ELSEIF"
  | .END => ".END"
  | .ENDIF => ".ENDIF"
  | .ENDMACRO => ".ENDMACRO"
  | .ENDPROC => ".ENDPROC"
  | .ENDREP => ".ENDREP"
  | .ENDSCOPE => ".ENDSCOPE"
  | .ENDSTRUCT => ".ENDSTRUCT"
  | .ERROR => ".ERROR"
  | .EXITMACRO => ".EXITMACRO"
  | .EXPORT => ".EXPORT"
  | .EXPORTZP => ".EXPORTZP"
  | .FARADDR => ".FARADDR"
  | .FEATURE => ".FEATURE"
  | .FILEOPT => ".FILEOPT"
  | .FORCEIMPORT => ".FORCEIMPORT"
  | .FORCEWORD => ".FORCEWORD"
  | .GLOBAL => ".GLOBAL"
  | .GLOBALZP => ".GLOBALZP"
  | .I16 => ".I16"
  | .I8 => ".I8"
  | .IF => ".IF"
  | .IFBLANK => ".IFBLANK"
  | .IFCONST => ".IFCONST"
  | .IFDEF => ".IFDEF"
  | .IFNBLANK => ".IFNBLANK"
  | .IFNCONST => ".IFNCONST"
  | .IFNDEF => ".IFNDEF"
  | .IFNREF => ".IFNREF"
  | .IFP02 => ".IFP02"
  | .IFP816 => ".IFP816"
  | .IFPC02 => ".IFPC02"
  | .IFPSC02 => ".IFPSC02"
  | .IFREF => ".IFREF"
  | .IMPORT => ".IMPORT"
  | .IMPORTZP => ".IMPORTZP"
  | .INCBIN => ".INCBIN"
  | .INCLUDE => ".INCLUDE"
  | .LEFT => ".LEFT"
  | .LINECONT => ".LINECONT"
  | .LIST => ".LIST"
  | .LISTBYTES => ".LISTBYTES"
  | .LOCAL => ".LOCAL"
  | .LOCALCHAR => ".LOCALCHAR"
  | .MACPACK => ".MACPACK"
  | .MACRO => ".MACRO"
  | .MATCH => ".MATCH"
  | .MID => ".MID"
  | .NULL => ".NULL"
  | .ORG => ".ORG"
  | .OUT => ".OUT"
  | .P02 => ".P02"
  | .P816 => ".P816"
  | .PAGELENGTH => ".PAGELENGTH"
  | .PARAMCOUNT => ".PARAMCOUNT"
  | .PC02 => ".PC02"
  | .POPSEG => ".POPSEG"
  | .PROC => ".PROC"
  | .PSC02 => ".PSC02"
  | .PUSHSEG => ".PUSHSEG"
  | .REFERENCED => ".REFERENCED"
  | .RELOC => ".RELOC"
  | .REPEAT => ".REPEAT"
  | .RES => ".RES"
  | .RIGHT => ".RIGHT"
  | .RODATA => ".RODATA"
  | .SCOPE => ".SCOPE"
  | .SEGMENT => ".SEGMENT"
  | .SETCPU => ".SETCPU"
  | .SMART => ".SMART"
  | .STRAT => ".STRAT"
  | .STRING => ".STRING"
  | .STRLEN => ".STRLEN"
  | .STRUCT => ".STRUCT"
  | .SUNPLUS => ".SUNPLUS"
  | .TAG => ".TAG"
  | .TCOUNT => ".TCOUNT"
  | .TIME => ".TIME"
  | .UNION => ".UNION"
  | .VERSION => ".VERSION"
  | .WARNING => ".WARNING"
  | .WORD => ".WORD"
  | .XMATCH => ".XMATCH"
  | .ZEROPAGE => ".ZEROPAGE"

end Directive
end AsmScan
