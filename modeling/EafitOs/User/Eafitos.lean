import EafitOs.Library.Printint
import EafitOs.User.CString
import Mathlib.Logic.Function.Basic

/-!
# The EAFITos shell

`main` of `EAFITos.c` reads a line with `gets`, splits it into words in place and runs the
command the first word names. What it does in one turn of its loop is a list of events, and the
results of the system calls it makes are given by an environment.
-/

namespace EafitOs.User.Eafitos

open Function

def EndsLine (c : UInt8) : Prop := c = 10 ∨ c = 13

instance (c : UInt8) : Decidable (EndsLine c) := inferInstanceAs (Decidable (_ ∨ _))

/-- The loop of `gets` with room for so many bytes: the bytes it stores, and the input left. -/
def getsLoop : Nat → List UInt8 → List UInt8 × List UInt8
  | 0, input => ([], input)
  | _ + 1, [] => ([], [])
  | room + 1, c :: input =>
    if EndsLine c then ([c], input)
    else (c :: (getsLoop room input).1, (getsLoop room input).2)

/-- `gets` returns its buffer in every case, also at the end of the input. -/
def gets (max : Nat) (input : List UInt8) : Option (List UInt8) × List UInt8 :=
  (some ((getsLoop (max - 1) input).1 ++ [0]), (getsLoop (max - 1) input).2)

def Blank (c : UInt8) : Prop := c = 32 ∨ c = 9 ∨ c = 10 ∨ c = 13

instance (c : UInt8) : Decidable (Blank c) := inferInstanceAs (Decidable (_ ∨ _ ∨ _ ∨ _))

/-- The array `args`, whose entries are positions in the line or null, and `argc`. -/
structure Args where
  args : Nat → Option Nat
  argc : Nat

/-- `if (argc < 6 - 1) args[argc++] = &line[i]` -/
def Args.push (a : Args) (i : Nat) : Args :=
  if a.argc < 6 - 1 then ⟨update a.args a.argc (some i), a.argc + 1⟩ else a

/-- The loop over the line from position `i` on: the line it leaves and the arguments. -/
def splitLoop : List UInt8 → Nat → Bool → Args → List UInt8 × Args
  | [], _, _, a => ([], a)
  | c :: cs, i, inword, a =>
    if c = 0 then (c :: cs, a)
    else if Blank c then
      let r := splitLoop cs (i + 1) false a
      (0 :: r.1, r.2)
    else
      let r := splitLoop cs (i + 1) true (if inword then a else a.push i)
      (c :: r.1, r.2)

def split (line : List UInt8) (args : Nat → Option Nat) : List UInt8 × Args :=
  let r := splitLoop line 0 false ⟨args, 0⟩
  (r.1, { r.2 with args := update r.2.args r.2.argc none })

def argv (line : List UInt8) : List (List UInt8) :=
  let r := split line fun _ => none
  (List.range r.2.argc).map fun k => text (r.1.drop ((r.2.args k).getD 0))

def ascii (cs : List Char) : List UInt8 := cs.map fun c => c.toNat.toUInt8

def salir : List UInt8 := ascii ['s', 'a', 'l', 'i', 'r']
def ayuda : List UInt8 := ascii ['a', 'y', 'u', 'd', 'a']
def listar : List UInt8 := ascii ['l', 'i', 's', 't', 'a', 'r']
def leer : List UInt8 := ascii ['l', 'e', 'e', 'r']
def tiempo : List UInt8 := ascii ['t', 'i', 'e', 'm', 'p', 'o']
def limpiar : List UInt8 := ascii ['l', 'i', 'm', 'p', 'i', 'a', 'r']
def crear : List UInt8 := ascii ['c', 'r', 'e', 'a', 'r']
def eliminar : List UInt8 := ascii ['e', 'l', 'i', 'm', 'i', 'n', 'a', 'r']
def calcCmd : List UInt8 := ascii ['c', 'a', 'l', 'c']

/-- What the shell does: it prints, with the arguments of a format already as text, it runs a
program in a child and waits, or it makes a system call on a file. -/
inductive Event where
  | printf (fmt : String) (args : List (List UInt8))
  | child (prog : String) (args : List (List UInt8))
  | openFile (path : List UInt8)
  | close
  | unlink (path : List UInt8)
  deriving DecidableEq

/-- What the system calls of a turn return: whether `fork`, `open` and `unlink` succeed, and
the ticks of `uptime`. -/
structure Env where
  fork : Bool
  opens : List UInt8 → Bool
  unlinks : List UInt8 → Bool
  uptime : Int32

def say (msg : String) : Event := .printf msg []

def percentD (n : Int32) : List UInt8 := (Library.Ulib.printint n.toInt64 10 true).getD []

def atoiLoop : Int32 → List UInt8 → Int32
  | n, [] => n
  | n, c :: s => if 48 ≤ c ∧ c ≤ 57 then atoiLoop (n * 10 + .ofNat c.toNat - 48) s else n

def atoi (s : List UInt8) : Int32 := atoiLoop 0 s

def runAyuda : List Event :=
  ["\nComandos:\n", "  listar\n", "  leer <archivo>\n", "  tiempo\n",
    "  calc <num1> <operador> <num2>\n", "  crear <archivo>\n", "  eliminar <archivo>\n",
    "  limpiar\n", "  ayuda\n", "  salir\n"].map say

def runChild (env : Env) (prog : String) (args : List (List UInt8)) : List Event :=
  if env.fork then [.child prog args] else []

def runLeer (env : Env) : List (List UInt8) → List Event
  | [] => [say "Uso: leer <archivo>\n"]
  | file :: _ => runChild env "cat" [file]

def ticksPerSec : Int32 := 10

def runTiempo (env : Env) : List Event :=
  let total := env.uptime / ticksPerSec
  let hora := total / 3600
  let minuto := (total % 3600) / 60
  let segundo := total % 60
  [.printf "Tiempo desde arranque: %d%d:%d%d:%d%d\n"
    ([hora / 10, hora % 10, minuto / 10, minuto % 10, segundo / 10, segundo % 10].map percentD)]

def runCrear (env : Env) : List (List UInt8) → List Event
  | [file] =>
    if env.opens file then
      [.openFile file, .close, .printf "Archivo creado: %s\n" [file]]
    else [.openFile file, say "No se pudo crear el archivo\n"]
  | _ => [say "Uso: crear <archivo>\n"]

def Confirms (confirm : List UInt8) : Prop :=
  charAt confirm 0 = 115 ∧ (charAt confirm 1 = 105 ∨ charAt confirm 1 = 10 ∨ charAt confirm 1 = 0)

instance (confirm : List UInt8) : Decidable (Confirms confirm) :=
  inferInstanceAs (Decidable (_ ∧ (_ ∨ _ ∨ _)))

/-- `eliminar` reads an answer from the input; it gives the input left too. -/
def runEliminar (env : Env) (input : List UInt8) :
    List (List UInt8) → List Event × List UInt8
  | [file] =>
    let ask := Event.printf "Seguro que quieres eliminar '%s'? (si/no): " [file]
    match gets 16 input with
    | (none, input) => ([ask, say "Cancelado\n"], input)
    | (some confirm, input) =>
      if Confirms confirm then
        if env.unlinks file then
          ([ask, .unlink file, .printf "Archivo eliminado: %s\n" [file]], input)
        else ([ask, .unlink file, say "No se pudo eliminar el archivo\n"], input)
      else ([ask, say "Cancelado\n"], input)
  | _ => ([say "Uso: eliminar <archivo>\n"], input)

def resultado (r : Int32) : Event := .printf "Resultado: %d\n" [percentD r]

def runCalc : List (List UInt8) → List Event
  | [num1, operador, num2] =>
    let a := atoi num1
    let b := atoi num2
    let op := charAt operador 0
    if op = 43 then [resultado (a + b)]
    else if op = 45 then [resultado (a - b)]
    else if op = 42 then [resultado (a * b)]
    else if op = 47 then
      if b = 0 then [say "Error: division por cero\n"] else [resultado (a / b)]
    else [say "Operador invalido. Usa + - * /\n"]
  | _ => [say "Uso: calc <num1> <operador> <num2>\n"]

/-- The commands after `salir`: the events, and the input left. -/
def command (env : Env) (cmd : List UInt8) (args : List (List UInt8)) (input : List UInt8) :
    List Event × List UInt8 :=
  if cmd = ayuda then (runAyuda, input)
  else if cmd = listar then (runChild env "ls" [], input)
  else if cmd = leer then (runLeer env args, input)
  else if cmd = tiempo then (runTiempo env, input)
  else if cmd = limpiar then (List.replicate 30 (say "\n"), input)
  else if cmd = crear then (runCrear env args, input)
  else if cmd = eliminar then runEliminar env input args
  else if cmd = calcCmd then (runCalc args, input)
  else ([say "Comando no reconocido. Escribe ayuda.\n"], input)

/-- One turn of the loop: its events, the input left, and whether the loop ends with it. -/
structure Turn where
  events : List Event
  input : List UInt8
  ends : Bool

def prompt : Event := say "\nEAFITos> "

def turn (env : Env) (input : List UInt8) : Turn :=
  match gets 128 input with
  | (none, input) => ⟨[prompt], input, true⟩
  | (some line, input) =>
    match argv line with
    | [] => ⟨[prompt], input, false⟩
    | cmd :: args =>
      if cmd = salir then ⟨[prompt], input, true⟩
      else ⟨prompt :: (command env cmd args input).1, (command env cmd args input).2, false⟩

end EafitOs.User.Eafitos
