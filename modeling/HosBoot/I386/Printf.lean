/-
  I386/Printf.lean --- `printf` of `terminal.c`.

  The arguments are the 32-bit words on the stack; `char buf[16]` is memory of its
  own, in `printf` and in each of the functions it calls, and holds at first what the
  stack happens to hold.  The state records the characters passed to `putc` and the
  addresses of the format that are read.
-/
import HosBoot.Common.Format
import HosBoot.I386.Terminal

set_option autoImplicit false

namespace HosBoot.I386

open HosBoot.Foundation HosBoot.Common

/-! ## The buffers -/

/-- The bytes from `buf` on, as one turn of the loop finds them. -/
structure Frame where
  /-- `buf` of `printf`. -/
  own : Mem
  /-- `buf` of `putint`, `putint16`, `putuint` or `putuint16`. -/
  callee : Mem

/-- `formatint(i, base, pad_zeros, buf)` and the text that `puts(buf)` finds. -/
def putSigned (T : DigitTable) (base : Int32) (padZeros : Bool) (buf : Mem) (i : Int32) :
    Option (List UInt8) := do
  let (_, m) ← formatint T buf i base padZeros 0
  stringAt m addressSpace 0

/-- `formatunsigned(i, base, pad_zeros, buf)` and the text that `puts(buf)` finds. -/
def putUnsigned (T : DigitTable) (base : Int32) (padZeros : Bool) (buf : Mem) (i : UInt32) :
    Option (List UInt8) := do
  let (_, m) ← formatunsigned T buf i base padZeros 0
  stringAt m addressSpace 0

/-- `putint` -/
def putint (T : DigitTable) (buf : Mem) (i : Int32) : Option (List UInt8) :=
  putSigned T 10 false buf i
/-- `putint16` -/
def putint16 (T : DigitTable) (buf : Mem) (i : Int32) : Option (List UInt8) :=
  putSigned T 16 false buf i
/-- `putuint` -/
def putuint (T : DigitTable) (buf : Mem) (i : UInt32) : Option (List UInt8) :=
  putUnsigned T 10 false buf i
/-- `putuint16` -/
def putuint16 (T : DigitTable) (buf : Mem) (i : UInt32) : Option (List UInt8) :=
  putUnsigned T 16 false buf i

/-- The case `'X'` under `'l'`: the upper half, if there is one, and the lower half, both
through the same `buf`. -/
def putLongHex (T : DigitTable) (buf : Mem) (llu : UInt64) : Option (List UInt8) := do
  let high := (llu >>> 32).toUInt32
  let (_, m) ← formatunsigned T buf high 16 false 0
  let upper ← if llu >>> 32 > 0 then stringAt m addressSpace 0 else some []
  let (_, m) ← formatunsigned T m (llu &&& 0xFFFFFFFF).toUInt32 16 (llu >>> 32 > 0) 0
  let lower ← stringAt m addressSpace 0
  return upper ++ lower

/-! ## The state -/

/-- The variables of `printf`, and what it has done. -/
structure PrintfState where
  /-- `s` -/
  s : Nat
  /-- The words that `va_arg` has not taken yet. -/
  ap : List UInt32
  /-- `ret` -/
  ret : Int32
  terminal : Terminal
  /-- The characters passed to `putc`. -/
  passed : List UInt8
  /-- The addresses of the format that have been read. -/
  reads : List Nat

namespace PrintfState

/-- Pass a text to `putc`, and count it in `ret`. -/
def put (st : PrintfState) (text : List UInt8) : PrintfState :=
  { st with
    ret := st.ret + Int32.ofNat text.length
    terminal := st.terminal.putcs text
    passed := st.passed ++ text }

/-- `*s` -/
def read (st : PrintfState) : PrintfState := { st with reads := st.reads ++ [st.s] }

/-- `*++s` -/
def advance (st : PrintfState) : PrintfState := read { st with s := st.s + 1 }

/-- Take one word with `va_arg`, and put the text made of it. -/
def convert (st : PrintfState) (text : UInt32 → Option (List UInt8)) : Option PrintfState :=
  match st.ap with
  | [] => none
  | w :: ap => (text w).map fun t => put { st with ap := ap } t

/-- Take a `long long`, two words, and put the text made of it. -/
def convertLong (st : PrintfState) (text : UInt64 → Option (List UInt8)) : Option PrintfState :=
  match st.ap with
  | low :: high :: ap =>
      (text (high.toUInt64 <<< 32 ||| low.toUInt64)).map fun t => put { st with ap := ap } t
  | _ => none

end PrintfState

/-! ## The function -/

/-- The byte of a character constant. -/
def code (c : Char) : UInt8 := UInt8.ofNat c.toNat

/-- The switch under `'0'`.  The case `'u'` formats in base 16. -/
def zeroConversion (T : DigitTable) (frame : Frame) (spec : UInt8) (st : PrintfState) :
    Option PrintfState :=
  if spec = code 'x' then
    st.convert fun d => putSigned T 16 true frame.own d.toInt32
  else if spec = code 'X' then
    st.convert fun u => putUnsigned T 16 true frame.own u
  else if spec = code 'd' then
    st.convert fun d => putSigned T 10 true frame.own d.toInt32
  else if spec = code 'u' then
    st.convert fun u => putUnsigned T 16 true frame.own u
  else
    some (st.put [code '?'])

/-- The switch under `'l'`. -/
def longConversion (T : DigitTable) (frame : Frame) (spec : UInt8) (st : PrintfState) :
    Option PrintfState :=
  if spec = code 'X' then
    st.convertLong fun llu => putLongHex T frame.own llu
  else
    some (st.put [code '?'])

/-- The switch on the character behind `'%'`. -/
def conversion (T : DigitTable) (m : Mem) (frame : Frame) (spec : UInt8) (st : PrintfState) :
    Option PrintfState :=
  if spec = code 'd' then
    st.convert fun d => putint T frame.callee d.toInt32
  else if spec = code 's' then
    st.convert fun sp => stringAt m addressSpace sp.toNat
  else if spec = code 'x' then
    st.convert fun d => putint16 T frame.callee d.toInt32
  else if spec = code 'u' then
    st.convert fun u => putuint T frame.callee u
  else if spec = code 'X' then
    st.convert fun u => putuint16 T frame.callee u
  else if spec = code '0' then
    let st := st.advance
    zeroConversion T frame (m st.s) st
  else if spec = code 'l' then
    let st := st.advance
    longConversion T frame (m st.s) st
  else if spec = code 'c' then
    st.convert fun c => some [c.toUInt8]
  else
    some (st.put [code '?'])

/-- One turn of the loop, `++s` included, once `*s` is known not to be the terminator. -/
def printfStep (T : DigitTable) (m : Mem) (frame : Frame) (st : PrintfState) :
    Option PrintfState := do
  let st ←
    if m st.s = code '%' then
      let st := st.advance
      conversion T m frame (m st.s) st
    else
      some (st.put [m st.s])
  return { st with s := st.s + 1 }

/-- The loop of `printf`. -/
def printfLoop (T : DigitTable) (m : Mem) :
    Nat → (Nat → Frame) → PrintfState → Option PrintfState
  | 0, _, _ => none
  | fuel + 1, frames, st =>
      let st := st.read
      if m st.s ≠ 0 then do
        let st ← printfStep T m (frames 0) st
        printfLoop T m fuel (fun n => frames (n + 1)) st
      else
        some st

/-- `printf`: the value returned, and the final state.  Memory does not change, but for the
buffers and the display. -/
def printf (T : DigitTable) (m : Mem) (frames : Nat → Frame) (s : UInt32) (ap : List UInt32)
    (terminal : Terminal) : Option (Int32 × PrintfState) :=
  (printfLoop T m addressSpace frames ⟨s.toNat, ap, 0, terminal, [], []⟩).map fun st =>
    (st.ret, st)

/-! ## Turns -/

namespace PrintfState

/-- The state after a turn that read `n` characters of the format and put a text. -/
def after (st : PrintfState) (text : List UInt8) (n : Nat) (ap : List UInt32) : PrintfState :=
  { put { st with ap := ap } text with
    s := st.s + n
    reads := st.reads ++ List.range' (st.s + 1) (n - 1) }

end PrintfState

end HosBoot.I386
