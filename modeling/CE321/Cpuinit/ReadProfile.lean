import CE321.Foundation.Leads
import CE321.Foundation.Reader
import CE321.Vsched.Machine

/-! # Reading a profile, `cpuinit.c`

`readProfile` of the virtual machine, as a machine of its own whose places are the loops and
the labels of the function. It works on the stream of the profile and on the tree of
`thread_info` structures below init.

A value of `none` in a field stands for memory that was never written, or that was written
with a number that `fscanf` did not find. A file that cannot be opened is left out.
-/

namespace CE321.Cpuinit

open CString
open Vsched (ThreadType)

def ascii (text : String) : Bytes := text.toList.map fun c => UInt8.ofNat c.toNat

/-- The parse options, in the order of their cases. -/
inductive Copt where
  | cycleTime
  | newProcess
  | endProcess
  | spawnTime
  | name
  | type
  | seed
  | endtime
  | killTime
  | nice
  | spawn
  | endSpawn
  | workDuration
  deriving DecidableEq

def coptions : List (Bytes × Copt) :=
  [(ascii "CYCLE_TIME", .cycleTime), (ascii "NEWPROCESS", .newProcess),
    (ascii "ENDPROCESS", .endProcess), (ascii "SPAWNTIME", .spawnTime), (ascii "NAME", .name),
    (ascii "TYPE", .type), (ascii "SEED", .seed), (ascii "ENDTIME", .endtime),
    (ascii "KILLTIME", .killTime), (ascii "NICE", .nice), (ascii "SPAWN", .spawn),
    (ascii "ENDSPAWN", .endSpawn), (ascii "WORKDURATION", .workDuration)]

/-- `ttype` and `tint`. -/
def ttype : List (Bytes × ThreadType) :=
  [(ascii "INTERACTIVE", .interactive), (ascii "NONINTERACTIVE", .noninteractive)]

/-- The entry of a table whose text a C string is. -/
def lookup {α : Type} (table : List (Bytes × α)) (text : Bytes) : Option α :=
  (table.find? fun entry => strcmpEq text entry.1).map Prod.snd

/-! ## The data -/

/-- The structures are numbered in the order of their allocation, and `list` has those that
`clist` links. -/
structure ThreadInfo where
  spawnTime : Option Int
  killTime : Option Int
  niceValue : Option Int
  spawns : Option Bool
  workDuration : Option Int
  threadType : Option ThreadType
  processName : Option Bytes
  parent : Option Nat
  list : List Nat

/-- The globals and the structures. Structure 0 is init's. -/
structure Memory where
  cycletime : Option Int
  ranSeed : Option Int
  endtime : Option Int
  allocated : Nat
  info : Nat → ThreadInfo

/-- The memory and the local variables of `readProfile`. -/
structure Parser where
  memory : Memory
  newtask : Option Nat
  top : Option Nat
  children : Int

/-- A result, or a null pointer that is followed. -/
inductive Outcome where
  | returned (value : Bool) (memory : Memory)
  | nullWrite
  | nullRead

/-- The places of `readProfile`: the loop over the file, the label `WHITESPACE`, the loop over
a comment with the byte read last, the loop over an option with the bytes of it, and the label
`WHITESPACE_VAL`. -/
inductive Label where
  | loop
  | whitespace
  | comment (copt : UInt8)
  | option (copt : Bytes)
  | value (option : Copt)

inductive State where
  | running (label : Label) (file : Reader) (parser : Parser)
  | ended (outcome : Outcome)

/-! ## Values -/

/-- What `fscanf` stores of a number: `strtol` stops at the bounds of a `long`, and an `int`
keeps 32 bits of that. -/
def storeInt (value : Int) : Int := (max (-2 ^ 63) (min value (2 ^ 63 - 1))).bmod (2 ^ 32)

/-- The sign of a number. -/
def readSign (file : Reader) : Int × Reader :=
  if file.ahead.head? = some 45 then (-1, file.fread.2)
  else if file.ahead.head? = some 43 then (1, file.fread.2)
  else (1, file)

/-- `fscanf(fp, "%d", &val)`. -/
def readint (file : Reader) : Option Int × Reader :=
  let (_, file) := file.readWhile isSpace
  let (sign, file) := readSign file
  let (digits, file) := file.readWhile isDigit
  (if digits = [] then none else some (storeInt (sign * digitsValue digits)), file)

/-- Counts the bytes of a word and the byte behind it, steps back and reads the word. At the
end of the file there is no byte behind it. -/
def readstring (file : Reader) : Option Bytes × Reader :=
  let (word, file) := file.readPast fun c => !isSpace c
  if word = [] then (none, file)
  else
    let file := file.seekBack (word.length + 1)
    (some (file.ahead.take word.length),
      ⟨(file.ahead.take word.length).reverse ++ file.behind, file.ahead.drop word.length, file.eof⟩)

/-! ## The cases -/

def Memory.setInfo (memory : Memory) (task : Nat) (change : ThreadInfo → ThreadInfo) : Memory :=
  { memory with info := Function.update memory.info task (change (memory.info task)) }

def Parser.setInfo (parser : Parser) (task : Nat) (change : ThreadInfo → ThreadInfo) : Parser :=
  { parser with memory := parser.memory.setInfo task change }

/-- Writes through `newtask`. -/
def writeTask (parser : Parser) (change : ThreadInfo → ThreadInfo) : Except Outcome Parser :=
  match parser.newtask with
  | none => .error .nullWrite
  | some task => .ok (parser.setInfo task change)

/-- A new structure, at the end of the list of `top`. -/
def newProcess (parser : Parser) : Except Outcome Parser :=
  let task := parser.memory.allocated
  let made : Parser := { parser with
    memory := { parser.memory with
      allocated := task + 1
      info := Function.update parser.memory.info task
        { spawnTime := none, killTime := some (-1), niceValue := some 0, spawns := none,
          workDuration := some (-1), threadType := none, processName := none,
          parent := parser.top, list := [] } }
    newtask := some task }
  match parser.top with
  | none => .error .nullWrite
  | some top => .ok (made.setInfo top fun info => { info with list := info.list ++ [task] })

/-- A nice value that is out of bounds becomes 0. -/
def checkNice (value : Int) : Int := if value < -19 ∨ value > 20 then 0 else value

def spawn (parser : Parser) : Except Outcome Parser :=
  match parser.newtask with
  | none => .error .nullWrite
  | some task => .ok { parser.setInfo task fun info => { info with spawns := some true } with
      top := some task
      children := parser.children + 1 }

def endSpawn (parser : Parser) : Except Outcome Parser :=
  match parser.top with
  | none => .error .nullRead
  | some old => .ok { parser with
      top := (parser.memory.info old).parent
      newtask := some old
      children := parser.children - 1 }

/-- Back to the loop over the file, if no null pointer was followed. -/
def goOn (file : Reader) : Except Outcome Parser → State
  | .ok parser => .running .loop file parser
  | .error outcome => .ended outcome

/-- The `switch`, with the stream at the first byte of the value. -/
def parseValue (option : Copt) (file : Reader) (parser : Parser) : State :=
  match option with
  | .cycleTime =>
      let (value, file) := readint file
      .running .loop file { parser with memory := { parser.memory with cycletime := value } }
  | .newProcess => goOn file (newProcess parser)
  | .endProcess => .running .loop file { parser with newtask := none }
  | .spawnTime =>
      let (value, file) := readint file
      goOn file (writeTask parser fun info => { info with spawnTime := value })
  | .name =>
      let (name, file) := readstring file
      goOn file (writeTask parser fun info => { info with processName := name })
  | .type =>
      match readstring file with
      | (none, _) => .ended .nullRead
      | (some temp, file) =>
          match lookup ttype temp with
          | some type => goOn file (writeTask parser fun info => { info with threadType := some type })
          | none => .running .loop file parser
  | .seed =>
      let (value, file) := readint file
      .running .loop file { parser with memory := { parser.memory with ranSeed := value } }
  | .endtime =>
      let (value, file) := readint file
      .running .loop file { parser with memory := { parser.memory with endtime := value } }
  | .killTime =>
      let (value, file) := readint file
      goOn file (writeTask parser fun info => { info with killTime := value })
  | .nice =>
      let (value, file) := readint file
      goOn file (writeTask parser fun info => { info with niceValue := value.map checkNice })
  | .spawn => goOn file (spawn parser)
  | .endSpawn => goOn file (endSpawn parser)
  | .workDuration =>
      let (value, file) := readint file
      goOn file (writeTask parser fun info => { info with workDuration := value })

/-! ## The loops -/

def Parser.fails (parser : Parser) : State := .ended (.returned false parser.memory)

/-- Behind the loop over the file. -/
def Parser.finishes (parser : Parser) : State :=
  .ended (.returned (decide (parser.children = 0)) parser.memory)

def parseOption (copt : Bytes) (file : Reader) (parser : Parser) : State :=
  match lookup coptions copt with
  | none => parser.fails
  | some option => .running (.value option) file parser

def step : State → State
  | .ended outcome => .ended outcome
  | .running .loop file parser =>
      if file.eof then parser.finishes else .running .whitespace file parser
  | .running .whitespace file parser =>
      match file.fread with
      | (none, file) => .running .loop file parser
      | (some c, file) =>
          if isSpace c then .running .whitespace file parser
          else if c = 59 then .running (.comment c) file parser
          else if c ≠ 35 then parser.fails
          else .running (.option []) file parser
  | .running (.comment c) file parser =>
      if c = 10 then .running .loop file parser
      else
        match file.fread with
        | (none, file) => .running (.comment c) file parser
        | (some c, file) => .running (.comment c) file parser
  | .running (.option copt) file parser =>
      if file.eof then parseOption copt file parser
      else if copt.length ≥ 48 then parser.fails
      else
        match file.fread with
        | (none, file) => .running .whitespace file parser
        | (some c, file) =>
            if isSpace c then parseOption copt file parser
            else .running (.option (copt ++ [c])) file parser
  | .running (.value option) file parser =>
      match file.fread with
      | (none, file) => .running .loop file parser
      | (some c, file) =>
          if isSpace c then .running (.value option) file parser
          else parseValue option (file.seekBack 1) parser

/-- The memory that `__init_sched` leaves. -/
def initialMemory : Memory where
  cycletime := some 10
  ranSeed := some 42
  endtime := some 1
  allocated := 1
  info := fun _ =>
    { spawnTime := none, killTime := some (-1), niceValue := some 0, spawns := some true,
      workDuration := some (-1), threadType := some .init, processName := some (ascii "(Init:0)"),
      parent := none, list := [] }

/-- The variables at the start of `readProfile`, which lets init spawn. -/
def initialParser : Parser where
  memory := initialMemory
  newtask := none
  top := some 0
  children := 0

def start (contents : Bytes) : State := .running .loop (.within [] contents) initialParser

/-- `readProfile` ends on a file with an outcome. -/
def Ends (contents : Bytes) (outcome : Outcome) : Prop :=
  Leads step (start contents) (.ended outcome)

end CE321.Cpuinit
