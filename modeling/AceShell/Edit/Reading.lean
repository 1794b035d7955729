import AceShell.Edit.Commands
import AceShell.Lib.Decimal

/-!
# Reading commands

How EDIT takes one command off the text of a command line, after `execute_one` and the parsers of
`edit.c`. What is read depends on the text alone. A command that cannot be read is an order to
refuse it: the error is reported when its turn comes. The numbers are `LONG`s that digit after digit
is added to, so that a long number wraps around.
-/

namespace AceShell.LineEditor

open Text Decimal

/-! ## Arguments -/

variable (text : List UInt8)

/-- `parse_blanks` -/
def parseBlanks : List UInt8 := text.dropWhile isBlank

def longOfDigits (digits : List UInt8) : ℤ :=
  digits.foldl (fun result digit => long (result * 10 + digitValue digit)) 0

/-- `parse_number` -/
def parseNumber : Option ℤ × List UInt8 :=
  let text := parseBlanks text
  let digits := text.takeWhile isDigit
  (if digits = [] then none else some (longOfDigits digits), text.dropWhile isDigit)

/-- `STRING_SIZE` -/
def stringSize : ℕ := 256

/-- The loop of `read_delimited`: was the string closed, what is in it, and what comes behind. -/
def readUntil (delimiter : UInt8) : List UInt8 → Bool × List UInt8 × List UInt8
  | [] => (false, [], [])
  | character :: rest =>
    if character = delimiter then (true, [], rest)
    else if character = 59 then (false, [], character :: rest)
    else
      let (closed, string, rest) := readUntil delimiter rest
      (closed, character :: string, rest)

/-- `read_delimited` -/
def readDelimited (delimiter : UInt8) (text : List UInt8) : Bool × List UInt8 × List UInt8 :=
  let (closed, string, rest) := readUntil delimiter text
  (closed, string.take (stringSize - 1), rest)

def qualify (qualifiers : Qualifiers) (letter : UInt8) : Option Qualifiers :=
  if letter = 66 then some { qualifiers with atBegin := true }
  else if letter = 69 then some { qualifiers with atEnd := true }
  else if letter = 76 then some { qualifiers with last := true }
  else if letter = 80 then some { qualifiers with precise := true }
  else if letter = 85 then some { qualifiers with upper := true }
  else none

/-- `parse_qualifiers` -/
def parseQualifiers : Option Qualifiers × List UInt8 :=
  let text := parseBlanks text
  ((text.takeWhile isLetter).foldlM (fun known letter => qualify known (toUpper letter)) {},
    text.dropWhile isLetter)

def refuseQualifiers : Bool × List UInt8 :=
  let text := parseBlanks text
  if text.takeWhile isLetter = [] then (true, text)
  else (false, (text.dropWhile isLetter).drop 1)

def openString : List UInt8 → Option (UInt8 × List UInt8)
  | [] => none
  | delimiter :: rest =>
    if delimiter = 59 || isLetter delimiter || isDigit delimiter then none
    else some (delimiter, rest)

/-- `parse_string` -/
def parseString : Option (List UInt8) × List UInt8 :=
  match openString (parseBlanks text) with
  | none => (none, parseBlanks text)
  | some (delimiter, rest) =>
    let (_, string, rest) := readDelimited delimiter rest
    (some string, rest)

/-- `parse_pair` -/
def parsePair : Option (List UInt8 × List UInt8) × List UInt8 :=
  match openString (parseBlanks text) with
  | none => (none, parseBlanks text)
  | some (delimiter, rest) =>
    match readDelimited delimiter rest with
    | (false, _, rest) => (none, rest)
    | (true, first, rest) =>
      let (_, second, rest) := readDelimited delimiter rest
      (some (first, second), rest)

def endsName : List UInt8 → Bool
  | [] => true
  | character :: _ => isBlank character || character == 59

/-- The search of `parse_file` for the delimiter that closes the name, which is the last one that
can. -/
def closeName (delimiter : UInt8) : ℕ → List UInt8 → Option ℕ
  | _, [] => none
  | scan, character :: rest =>
    match closeName delimiter (scan + 1) rest with
    | some close => some close
    | none => if character == delimiter && endsName rest then some scan else none

/-- `parse_file` -/
def parseFile : Option (List UInt8) × List UInt8 :=
  match parseBlanks text with
  | [] => (none, [])
  | character :: rest =>
    if character = 59 then (none, character :: rest)
    else if !isLetter character && !isDigit character then
      let close := (closeName character 0 rest).getD rest.length
      let name := (rest.take close).take (Edit.nameSize - 1)
      (if name = [] then none else some name, rest.drop (close + 1))
    else
      let ends (c : UInt8) := isBlank c || c == 59
      (some (((character :: rest).takeWhile (fun c => !ends c)).take (Edit.nameSize - 1)),
        (character :: rest).dropWhile (fun c => !ends c))

/-- `parse_switch` -/
def parseSwitch : Option Bool × List UInt8 :=
  match parseBlanks text with
  | 43 :: rest => (some true, rest)
  | 45 :: rest => (some false, rest)
  | text => (none, text)

/-! ## Names -/

/-- `enum Command` -/
inductive Keyword
  | m | n | p | f | bf
  | a | b | e | ap | bp | ep
  | i | d | df | r | z | shd | tr
  | pr | pa | pb
  | dta | dtb | dfa | dfb
  | sb | sa | cl
  | rewind | v | t | tp | tn | tl | h
  | ga | gb | ge | cg | dg | eg | shg
  | c | from_ | cf | to_ | q | w | stop
  deriving DecidableEq

/-- `command_names` -/
def commandNames : List (List UInt8 × Keyword) :=
  [(ascii "REWIND", .rewind), (ascii "REWI", .rewind), (ascii "STOP", .stop),
    (ascii "FROM", .from_), (ascii "SHD", .shd), (ascii "SHG", .shg), (ascii "DTA", .dta),
    (ascii "DTB", .dtb), (ascii "DFA", .dfa), (ascii "DFB", .dfb), (ascii "BF", .bf),
    (ascii "BP", .bp), (ascii "AP", .ap), (ascii "EP", .ep), (ascii "PR", .pr), (ascii "PA", .pa),
    (ascii "PB", .pb), (ascii "DF", .df), (ascii "TR", .tr), (ascii "TP", .tp), (ascii "TN", .tn),
    (ascii "TL", .tl), (ascii "SB", .sb), (ascii "SA", .sa), (ascii "CL", .cl), (ascii "CG", .cg),
    (ascii "CF", .cf), (ascii "DG", .dg), (ascii "GA", .ga), (ascii "GB", .gb), (ascii "GE", .ge),
    (ascii "EG", .eg), (ascii "TO", .to_), (ascii "A", .a), (ascii "B", .b), (ascii "C", .c),
    (ascii "D", .d), (ascii "E", .e), (ascii "F", .f), (ascii "H", .h), (ascii "I", .i),
    (ascii "M", .m), (ascii "N", .n), (ascii "P", .p), (ascii "Q", .q), (ascii "R", .r),
    (ascii "T", .t), (ascii "V", .v), (ascii "W", .w), (ascii "Z", .z)]

/-- The letters of `parse_command`, at most as many as its token holds. Commas mean nothing. -/
def commandToken : ℕ → List UInt8 → List UInt8
  | _, [] => []
  | room, character :: rest =>
    if room = 0 then []
    else if character = 44 then commandToken room rest
    else if isLetter character then toUpper character :: commandToken (room - 1) rest
    else []

def skipToken : ℕ → List UInt8 → List UInt8
  | _, [] => []
  | letters, character :: rest =>
    if letters = 0 then character :: rest
    else if character = 44 then skipToken letters rest
    else skipToken (letters - 1) rest

/-- `parse_command` -/
def parseCommand : Option (Keyword × List UInt8) :=
  let token := commandToken 8 text
  if token = [] then none
  else
    (commandNames.find? fun entry => entry.1 == token).map fun entry =>
      (entry.2, skipToken entry.1.length text)

/-! ## Orders -/

inductive Recase
  | lower | upper | blank
  deriving DecidableEq

/-- The lines D takes away. -/
inductive Deletion
  | rest
  | current
  | number (first : ℤ)
  | range (first last : ℤ)
  deriving DecidableEq

/-- Where I inserts. -/
inductive Place
  | here
  | atEnd
  | number (number : ℤ)
  deriving DecidableEq

/-- The lines R replaces. -/
inductive Replaced
  | current
  | number (first : ℤ)
  | range (first last : ℤ)
  deriving DecidableEq

/-- What one command asks for. An A, B or E comes with its own text, which `'` repeats. -/
inductive Order
  | refused (message : String)
  /-- A command about the current line. -/
  | refusedHere (message : String)
  | unknown (character : Option UInt8)
  | nothing
  | group (count : ℤ) (body : List UInt8)
  | repeatSaved
  | plain (command : Command)
  | renumber (number : ℤ)
  | recase (how : Recase) (count : ℤ)
  | erase (count : ℤ)
  | change (type : GlobalType) (movePointer : Bool)
      (strings : Except String (List UInt8 × List UInt8)) (text : List UInt8)
  | insert (place : Place) (file : Option (List UInt8))
  | delete (lines : Deletion)
  | deleteFound (qualifiers : Qualifiers) (text : Option (List UInt8))
  | replace (lines : Replaced) (file : Option (List UInt8))
  | deleteWindow (from_ after : Bool) (text : List UInt8)
  | split (after : Bool) (text : List UInt8)
  | join
  | trailing (value : Bool)
  | showState
  | showGlobals
  | global (type : GlobalType) (find replacement : List UInt8)
  | globalState (cancel enable : Bool) (id : Option ℤ)
  | commands (name : List UInt8)
  | to_ (name : Option (List UInt8))
  | close (name : List UInt8)
  | rewind
  | quit
  | stop

abbrev Read := Order × List UInt8

/-! ### Family readers -/

/-- A command that takes one string and no qualifiers, about the current line. -/
def readString (order : List UInt8 → Order) (text : List UInt8) : Read :=
  match refuseQualifiers text with
  | (false, rest) => (.refusedHere "Illegal qualifiers", rest)
  | (true, rest) =>
    match parseString rest with
    | (none, rest) => (.refusedHere "String needed", rest)
    | (some string, rest) => (order string, rest)

/-- The two strings of a change. -/
def readPair : Except String (List UInt8 × List UInt8) × List UInt8 :=
  match refuseQualifiers text with
  | (false, rest) => (.error "Illegal qualifiers", rest)
  | (true, rest) =>
    match parsePair rest with
    | (none, rest) => (.error "Two strings needed", rest)
    | (some strings, rest) => (.ok strings, rest)

def readChange (type : GlobalType) (movePointer : Bool) (whole text : List UInt8) : Read :=
  let (strings, rest) := readPair text
  (.change type movePointer strings (whole.take (whole.length - rest.length)), rest)

/-- GA, GB and GE -/
def readGlobal (type : GlobalType) (text : List UInt8) : Read :=
  match readPair text with
  | (.error message, rest) => (.refused message, rest)
  | (.ok (find, replacement), rest) =>
    (if find = [] then .refused "No search string" else .global type find replacement, rest)

/-- F, BF and DF -/
def readSearch (order : Qualifiers → Option (List UInt8) → Order) (text : List UInt8) : Read :=
  match parseQualifiers text with
  | (none, rest) => (.refused "Unknown qualifier", rest)
  | (some qualifiers, rest) =>
    let (string, rest) := parseString rest
    (order qualifiers string, rest)

def readCount (order : ℕ → Command) (count : ℤ) (text : List UInt8) : Read :=
  let (number, rest) := parseNumber text
  (.plain (order (number.getD count).toNat), rest)

/-- V and TR -/
def readSwitch (order : Bool → Order) (text : List UInt8) : Read :=
  match parseSwitch text with
  | (none, rest) => (.refused "+ or - needed", rest)
  | (some value, rest) => (order value, rest)

/-- T and TL -/
def readType (numbered : Bool) (text : List UInt8) : Read :=
  let (limit, rest) := parseNumber text
  (.plain (.type numbered (limit.map Int.toNat)), rest)

/-- CG, DG and EG -/
def readGlobalState (cancel enable : Bool) (text : List UInt8) : Read :=
  let (id, rest) := parseNumber text
  (.globalState cancel enable id, rest)

/-- C and CF -/
def readName (order : List UInt8 → Order) (text : List UInt8) : Read :=
  match parseFile text with
  | (none, rest) => (.refused "File name needed", rest)
  | (some name, rest) => (order name, rest)

/-! ### Single commands -/

def readMove : Read :=
  match parseBlanks text with
  | 42 :: rest => (.plain (.move .last), rest)
  | 43 :: rest => (.plain (.move .highest), rest)
  | 45 :: rest => (.plain (.move .lowest), rest)
  | text =>
    match parseNumber text with
    | (some number, rest) => (.plain (.move (.number number)), rest)
    | (none, rest) => (.refused "Number expected after M", rest.drop 1)

/-- The command H. -/
def readHalt : Read :=
  match parseBlanks text with
  | 42 :: rest => (.plain (.halt 0), rest)
  | text =>
    match parseNumber text with
    | (some number, rest) => (.plain (.halt number), rest)
    | (none, rest) => (.refused "Number expected after H", rest.drop 1)

/-- The command I. -/
def readInsert : Read :=
  let (place, rest) : Place × List UInt8 :=
    match parseBlanks text with
    | 42 :: rest => (.atEnd, rest)
    | text =>
      match parseNumber text with
      | (some number, rest) => (.number number, rest)
      | (none, rest) => (.here, rest)
  let (file, rest) := parseFile rest
  (.insert place file, rest)

def readDelete : Read :=
  match parseBlanks text with
  | 42 :: rest => (.delete .rest, rest)
  | text =>
    match parseNumber text with
    | (none, rest) => (.delete .current, rest)
    | (some first, rest) =>
      match parseNumber rest with
      | (none, rest) => (.delete (.number first), rest)
      | (some last, rest) => (.delete (.range first last), rest)

/-- The command R. -/
def readReplace : Read :=
  let (lines, rest) : Replaced × List UInt8 :=
    match parseNumber text with
    | (none, rest) => (.current, rest)
    | (some first, rest) =>
      match parseNumber rest with
      | (none, rest) => (.number first, rest)
      | (some last, rest) => (.range first last, rest)
  let (file, rest) := parseFile rest
  (.replace lines file, rest)

/-- The refusals of Z -/
def readTerminator : Read :=
  match parseBlanks text with
  | [] => (.refused "Null context after Z", [])
  | character :: rest =>
    if character = 59 then (.refused "Null context after Z", character :: rest)
    else if isLetter character then (.refused "Unknown command", rest)
    else if character = 44 ∨ character = 47 ∨ character = 46 then
      (.refused "Illegal qualifiers", rest)
    else (.refused "Unknown qualifier", rest)

def readJoin : Read :=
  match parseBlanks text with
  | [] => (.join, [])
  | character :: rest =>
    if character != 59 && !isLetter character && !isDigit character then
      (.refused "Illegal qualifiers", rest)
    else (.join, character :: rest)

def readSource (order : Option (List UInt8) → Order) (text : List UInt8) : Read :=
  let (name, rest) := parseFile text
  (order name, rest)

/-- The command `=`. -/
def readRenumber : Read :=
  match parseNumber text with
  | (none, rest) => (.refused "Line number needed", rest)
  | (some number, rest) => (.renumber number, rest)

def Keyword.read (count : ℤ) (whole rest : List UInt8) : Keyword → Read
  | .m => readMove rest
  | .n => readCount .next count rest
  | .p => readCount .previous count rest
  | .f => readSearch (fun qualifiers text => .plain (.find false qualifiers text)) rest
  | .bf => readSearch (fun qualifiers text => .plain (.find true qualifiers text)) rest
  | .a => readChange .after false whole rest
  | .b => readChange .before false whole rest
  | .e => readChange .exchange false whole rest
  | .ap => readChange .after true whole rest
  | .bp => readChange .before true whole rest
  | .ep => readChange .exchange true whole rest
  | .i => readInsert rest
  | .d => readDelete rest
  | .df => readSearch .deleteFound rest
  | .r => readReplace rest
  | .z => readTerminator rest
  | .shd => (.showState, rest)
  | .tr => readSwitch .trailing rest
  | .pr => (.plain .pointerReset, rest)
  | .pa => readString (fun text => .plain (.pointerString true text)) rest
  | .pb => readString (fun text => .plain (.pointerString false text)) rest
  | .dta => readString (.deleteWindow false true) rest
  | .dtb => readString (.deleteWindow false false) rest
  | .dfa => readString (.deleteWindow true true) rest
  | .dfb => readString (.deleteWindow true false) rest
  | .sb => readString (.split false) rest
  | .sa => readString (.split true) rest
  | .cl => readJoin rest
  | .rewind => (.rewind, rest)
  | .v => readSwitch (fun value => .plain (.verification value)) rest
  | .t => readType false rest
  | .tp => (.plain .typeQueue, rest)
  | .tn => (.plain .typeNew, rest)
  | .tl => readType true rest
  | .h => readHalt rest
  | .ga => readGlobal .after rest
  | .gb => readGlobal .before rest
  | .ge => readGlobal .exchange rest
  | .cg => readGlobalState true false rest
  | .dg => readGlobalState false false rest
  | .eg => readGlobalState false true rest
  | .shg => (.showGlobals, rest)
  | .c => readName .commands rest
  | .from_ => readSource (fun name => .plain (.from_ name)) rest
  | .cf => readName .close rest
  | .to_ => readSource .to_ rest
  | .q => (.quit, rest)
  | .w => (.plain .write, rest)
  | .stop => (.stop, rest)

/-- The scan for the parenthesis that closes a group: what is before it, and what is behind. -/
def readGroup : ℕ → List UInt8 → Option (List UInt8 × List UInt8)
  | _, [] => none
  | depth, character :: rest =>
    if character = 41 ∧ depth = 0 then some ([], rest)
    else
      let depth := if character = 40 then depth + 1 else if character = 41 then depth - 1 else depth
      (readGroup depth rest).map fun (body, behind) => (character :: body, behind)

def readAt (count : ℤ) : List UInt8 → Read
  | [] => (.refused "Command needed", [])
  | character :: rest =>
    match character with
    | 40 =>
      match readGroup 0 rest with
      | none => (.refused "Unmatched parenthesis", [])
      | some (body, rest) => (.group count body, rest)
    | 41 => (.refused "Unmatched parenthesis", rest)
    | 39 => (.repeatSaved, rest)
    | 59 => (.nothing, rest)
    | 63 => (.plain .verify, rest)
    | 33 => (.plain .verifyHex, rest)
    | 61 => readRenumber rest
    | 62 => (.plain (.right count), rest)
    | 60 => (.plain (.left count), rest)
    | 36 => (.recase .lower count, rest)
    | 37 => (.recase .upper count, rest)
    | 95 => (.recase .blank count, rest)
    | 35 => (.erase count, rest)
    | _ =>
      match parseCommand (character :: rest) with
      | none => (.unknown (if isLetter character then none else some character), [])
      | some (keyword, behind) => keyword.read count (character :: rest) behind

def readOrder : Read :=
  let (count, rest) := parseNumber text
  readAt (count.getD 1) (parseBlanks rest)

end AceShell.LineEditor
