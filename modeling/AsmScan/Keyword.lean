import AsmScan.SortedTable
import AsmScan.Token

/-! Words that are more than names.

Dotted words are directives and operators, some under several spellings. A single
letter may be a register, or the override of an address size. All words here are
in upper case; a word of the source is folded before it is looked up. -/
namespace AsmScan.Keyword

/-- The dotted words with their tokens, in dictionary order. -/
def dotted : List (String × Token) :=
  [(".A16", .directive .A16),
   (".A8", .directive .A8),
   (".ADDR", .directive .ADDR),
   (".ALIGN", .directive .ALIGN),
   (".AND", .boolAnd),
   (".ASCIIZ", .directive .ASCIIZ),
   (".ASSERT", .directive .ASSERT),
   (".AUTOIMPORT", .directive .AUTOIMPORT),
   (".BITAND", .bitAnd),
   (".BITNOT", .bitNot),
   (".BITOR", .bitOr),
   (".BITXOR", .bitXor),
   (".BLANK", .directive .BLANK),
   (".BSS", .directive .BSS),
   (".BYT", .directive .BYTE),
   (".BYTE", .directive .BYTE),
   (".CASE", .directive .CASE),
   (".CHARMAP", .directive .CHARMAP),
   (".CODE", .directive .CODE),
   (".CONCAT", .directive .CONCAT),
   (".CONDES", .directive .CONDES),
   (".CONST", .directive .CONST),
   (".CONSTRUCTOR", .directive .CONSTRUCTOR),
   (".CPU", .directive .CPU),
   (".DATA", .directive .DATA),
   (".DBG", .directive .DBG),
   (".DBYT", .directive .DBYT),
   (".DEBUGINFO", .directive .DEBUGINFO),
   (".DEF", .directive .DEFINED),
   (".DEFINE", .directive .DEFINE),
   (".DEFINED", .directive .DEFINED),
   (".DESTRUCTOR", .directive .DESTRUCTOR),
   (".DWORD", .directive .DWORD),
   (".ELSE", .directive .ELSE),
   (".ELSEIF", .directive .ELSEIF),
   (".END", .directive .END),
   (".ENDIF", .directive .ENDIF),
   (".ENDMAC", .directive .ENDMACRO),
   (".ENDMACRO", .directive .ENDMACRO),
   (".ENDPROC", .directive .ENDPROC),
   (".ENDREP", .directive .ENDREP),
   (".ENDREPEAT", .directive .ENDREP),
   (".ENDSCOPE", .directive .ENDSCOPE),
   (".ENDSTRUCT", .directive .ENDSTRUCT),
   (".ERROR", .directive .ERROR),
   (".EXITMAC", .directive .EXITMACRO),
   (".EXITMACRO", .directive .EXITMACRO),
   (".EXPORT", .directive .EXPORT),
   (".EXPORTZP", .directive .EXPORTZP),
   (".FARADDR", .directive .FARADDR),
   (".FEATURE", .directive .FEATURE),
   (".FILEOPT", .directive .FILEOPT),
   (".FOPT", .directive .FILEOPT),
   (".FORCEIMPORT", .directive .FORCEIMPORT),
   (".FORCEWORD", .directive .FORCEWORD),
   (".GLOBAL", .directive .GLOBAL),
   (".GLOBALZP", .directive .GLOBALZP),
   (".I16", .directive .I16),
   (".I8", .directive .I8),
   (".IF", .directive .IF),
   (".IFBLANK", .directive .IFBLANK),
   (".IFCONST", .directive .IFCONST),
   (".IFDEF", .directive .IFDEF),
   (".IFNBLANK", .directive .IFNBLANK),
   (".IFNCONST", .directive .IFNCONST),
   (".IFNDEF", .directive .IFNDEF),
   (".IFNREF", .directive .IFNREF),
   (".IFP02", .directive .IFP02),
   (".IFP816", .directive .IFP816),
   (".IFPC02", .directive .IFPC02),
   (".IFPSC02", .directive .IFPSC02),
   (".IFREF", .directive .IFREF),
   (".IMPORT", .directive .IMPORT),
   (".IMPORTZP", .directive .IMPORTZP),
   (".INCBIN", .directive .INCBIN),
   (".INCLUDE", .directive .INCLUDE),
   (".LEFT", .directive .LEFT),
   (".LINECONT", .directive .LINECONT),
   (".LIST", .directive .LIST),
   (".LISTBYTES", .directive .LISTBYTES),
   (".LOCAL", .directive .LOCAL),
   (".LOCALCHAR", .directive .LOCALCHAR),
   (".MAC", .directive .MACRO),
   (".MACPACK", .directive .MACPACK),
   (".MACRO", .directive .MACRO),
   (".MATCH", .directive .MATCH),
   (".MID", .directive .MID),
   (".MOD", .modulo),
   (".NOT", .boolNot),
   (".NULL", .directive .NULL),
   (".OR", .boolOr),
   (".ORG", .directive .ORG),
   (".OUT", .directive .OUT),
   (".P02", .directive .P02),
   (".P816", .directive .P816),
   (".PAGELEN", .directive .PAGELENGTH),
   (".PAGELENGTH", .directive .PAGELENGTH),
   (".PARAMCOUNT", .directive .PARAMCOUNT),
   (".PC02", .directive .PC02),
   (".POPSEG", .directive .POPSEG),
   (".PROC", .directive .PROC),
   (".PSC02", .directive .PSC02),
   (".PUSHSEG", .directive .PUSHSEG),
   (".REF", .directive .REFERENCED),
   (".REFERENCED", .directive .REFERENCED),
   (".RELOC", .directive .RELOC),
   (".REPEAT", .directive .REPEAT),
   (".RES", .directive .RES),
   (".RIGHT", .directive .RIGHT),
   (".RODATA", .directive .RODATA),
   (".SCOPE", .directive .SCOPE),
   (".SEGMENT", .directive .SEGMENT),
   (".SETCPU", .directive .SETCPU),
   (".SHL", .shiftLeft),
   (".SHR", .shiftRight),
   (".SMART", .directive .SMART),
   (".STRAT", .directive .STRAT),
   (".STRING", .directive .STRING),
   (".STRLEN", .directive .STRLEN),
   (".STRUCT", .directive .STRUCT),
   (".SUNPLUS", .directive .SUNPLUS),
   (".TAG", .directive .TAG),
   (".TCOUNT", .directive .TCOUNT),
   (".TIME", .directive .TIME),
   (".UNION", .directive .UNION),
   (".VERSION", .directive .VERSION),
   (".WARNING", .directive .WARNING),
   (".WORD", .directive .WORD),
   (".XMATCH", .directive .XMATCH),
   (".XOR", .boolXor),
   (".ZEROPAGE", .directive .ZEROPAGE)]

/-- The table that dotted words are looked up in. -/
def dottedKeys : Array (List UInt8) := SortedTable.keys (dotted.map Prod.fst)

/-- The token of a dotted word. -/
def dotted? (word : List UInt8) : Option Token :=
  (SortedTable.search dottedKeys word).bind fun place => dotted[place]?.map Prod.snd

/-- The register that a word names. -/
def register? : List UInt8 → Option Token
  | [Byte.upperA] => some .registerA
  | [Byte.upperS] => some .registerS
  | [Byte.upperX] => some .registerX
  | [Byte.upperY] => some .registerY
  | _ => none

/-- The address size override that a letter stands for when a colon follows it. -/
def override? : UInt8 → Option Token
  | Byte.upperA => some .overrideAbsolute
  | Byte.upperF => some .overrideFar
  | Byte.upperZ => some .overrideZeropage
  | _ => none

end AsmScan.Keyword
