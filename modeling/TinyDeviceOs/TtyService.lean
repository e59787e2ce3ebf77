import TinyDeviceOs.LinkDispatch

/-! The shell of `apps/tty_service.c`. What a command does to apps, files and clocks is left to a
`Shell` on a state `σ`. -/
namespace TinyDeviceOs.TtyService

open LittleEndian LinkDispatch

def ttyLine : ℕ := 128
def ttyOut : ℕ := 2048
def ttyArgs : ℕ := 8
def ttyHtopMs : UInt32 := 1000

inductive Mode
  | line | attach | htop
  deriving DecidableEq

inductive Escape
  | normal | esc | csi
  deriving DecidableEq

/-- One byte of each buffer is kept for the terminator. -/
structure Tty where
  (line out : Bytes)
  mode : Mode
  escape : Escape
  (htopArmed closed : Bool)
  htopMs : UInt32
  line_fits : line.length < ttyLine
  out_fits : out.length < ttyOut

/-- The part of the system that the shell acts on. -/
structure Shell (σ : Type) where
  command : List Bytes → Tty × σ → Tty × σ
  tapKey : ℕ → σ → σ
  taskRows : σ → List Bytes

def ttyServiceReset : Tty where
  line := []
  out := []
  mode := .line
  escape := .normal
  htopArmed := false
  closed := false
  htopMs := 0
  line_fits := by decide
  out_fits := by decide

/-- `tty_puts` drops what no longer fits. -/
def ttyPuts (t : Tty) (s : Bytes) : Tty :=
  { t with
    out := t.out++s.take (ttyOut-1-t.out.length)
    out_fits := by
      have h := t.out_fits
      simp only [List.length_append,List.length_take]
      omega }

def ttyPrompt (t : Tty) : Tty := ttyPuts t (text "ardubot$ ")

def clearLine (t : Tty) : Tty := { t with line := [], line_fits := by decide }

def clearScreen : Bytes := [0x1b,0x5b,0x32,0x4a,0x1b,0x5b,0x48]

variable {σ : Type} (sh : Shell σ)

section

variable (t : Tty) (w : σ)

def ttyTaskTable : Tty :=
  (sh.taskRows w).foldl ttyPuts
    (ttyPuts (ttyPuts t clearScreen) (text "name             state     prio\n"))

def ttyServiceOpen : Tty := ttyPrompt { t with closed := false, mode := .line }

/-- The bytes taken and the state without them. -/
def ttyServiceRead (cap : ℕ) : Bytes × Tty :=
  (t.out.take cap,{ t with
    out := t.out.drop cap
    out_fits := by
      have h := t.out_fits
      rw [List.length_drop]
      omega })

def leaveMode : Tty :=
  ttyPrompt (ttyPuts (clearLine { t with mode := .line, escape := .normal }) (text "\n"))

def isSpace (b : UInt8) : Bool := b = 0x20 ∨ (0x09 ≤ b ∧ b ≤ 0x0d)

/-- `parse_args`: at most `max` blank-separated words. -/
def parseArgs : ℕ → Bytes → List Bytes
  | 0, _ => []
  | max+1, line =>
    let p := line.dropWhile isSpace
    if p = [] then []
    else p.takeWhile (!isSpace ·)::parseArgs max ((p.dropWhile (!isSpace ·)).drop 1)

/-- The line is empty before the command runs. -/
def execLine : Tty × σ :=
  match parseArgs ttyArgs t.line with
  | [] => (clearLine t,w)
  | argv => sh.command argv (clearLine t,w)

variable (byte : UInt8)

def lineByte : Tty × σ :=
  if byte = 0x03 then (ttyPrompt (ttyPuts (clearLine t) (text "^C\n")),w)
  else if byte = 0x0d ∨ byte = 0x0a then
    let (t,w) := execLine sh (ttyPuts t (text "\n")) w
    (if t.mode = .line ∧ t.closed = false then ttyPrompt t else t,w)
  else if byte = 0x7f ∨ byte = 0x08 then
    if t.line = [] then (t,w)
    else (ttyPuts { t with
      line := t.line.dropLast
      line_fits := by
        have h := t.line_fits
        rw [List.length_dropLast]
        omega } [0x08,0x20,0x08],w)
  else if byte < 0x20 ∨ 0x7e < byte then (t,w)
  else if h : ttyLine ≤ t.line.length+1 then (t,w)
  else (ttyPuts { t with
    line := t.line++[byte]
    line_fits := by
      rw [List.length_append,List.length_singleton]
      omega } [byte],w)

def keyUp : ℕ := 1
def keyDown : ℕ := 2
def keyLeft : ℕ := 3
def keyRight : ℕ := 4
def keyEnter : ℕ := 5
def keyEscape : ℕ := 6
def keySpace : ℕ := 7
def keyZero : ℕ := 8
def keyA : ℕ := 22

/-- `key_from_byte`; `none` is `SIM_KEY_UNKNOWN`. -/
def keyFromByte : Option ℕ :=
  if byte = 0x0d ∨ byte = 0x0a then some keyEnter
  else if byte = 0x1b then some keyEscape
  else if byte = 0x20 then some keySpace
  else if 0x61 ≤ byte ∧ byte ≤ 0x7a then some (keyA+(byte-0x61).toNat)
  else if 0x41 ≤ byte ∧ byte ≤ 0x5a then some (keyA+(byte-0x41).toNat)
  else if 0x30 ≤ byte ∧ byte ≤ 0x39 then some (keyZero+(byte-0x30).toNat)
  else none

def attachKey (key : ℕ) : Tty × σ :=
  (ttyPuts t (text "key "++text (toString key)++text "\n"),sh.tapKey key w)

def attachByte : Tty × σ :=
  if byte = 0x03 ∨ byte = 0x1a then (leaveMode t,w)
  else match t.escape with
    | .esc =>
      if byte = 0x5b then ({ t with escape := .csi },w)
      else attachKey sh { t with escape := .normal } w keyEscape
    | .csi =>
      let t := { t with escape := .normal }
      if byte = 0x41 then attachKey sh t w keyUp
      else if byte = 0x42 then attachKey sh t w keyDown
      else if byte = 0x43 then attachKey sh t w keyRight
      else if byte = 0x44 then attachKey sh t w keyLeft
      else (t,w)
    | .normal =>
      if byte = 0x1b then ({ t with escape := .esc },w)
      else match keyFromByte byte with
        | some key => attachKey sh t w key
        | none => (t,w)

end

def inputByte (st : Tty × σ) (byte : UInt8) : Tty × σ :=
  let (t,w) := st
  match t.mode with
  | .htop => (if byte = 0x03 then leaveMode t else t,w)
  | .attach => attachByte sh t w byte
  | .line =>
    match t.escape with
    | .esc => ({ t with escape := if byte = 0x5b then .csi else .normal },w)
    | .csi => ({ t with escape := .normal },w)
    | .normal =>
      if byte = 0x1b then ({ t with escape := .esc },w) else lineByte sh t w byte

def ttyServiceInput (t : Tty) (w : σ) (data : Bytes) : Tty × σ :=
  data.foldl (inputByte sh) (t,w)

def ttyServicePoll (t : Tty) (w : σ) (nowMs : UInt32) : Tty :=
  if t.mode ≠ .htop then t
  else if t.htopArmed = false then { t with htopArmed := true, htopMs := nowMs }
  else if nowMs-t.htopMs < ttyHtopMs then t
  else ttyTaskTable sh { t with htopMs := nowMs } w

end TinyDeviceOs.TtyService
