import Xv6.Uart.Defs
import Mathlib.Logic.Relation

/-!
The UART's transmit side with the processes that print through it.

A step is a turn of some process's `uartputc` under `uart_tx_lock`, or
the transmit half of an interrupt. A process that finds the ring full
sleeps without a change and may take its next turn at any later point;
which process it is does not matter to the ring, so the steps name the
byte only. Wakeups are not modelled, which only adds runs. The answers
the line status register gives are part of each step, so the
transmitter may become idle at any time.

`accepted` records the bytes `uartputc` stored, in order.
-/

namespace Xv6

/-- The driver and the bytes accepted so far. -/
structure UartSys where
  uart : Uart
  accepted : List UInt8

/-- A step of the system. -/
inductive UartEv
  /-- A turn of `uartputc(c)`. -/
  | putc (c : UInt8) (lsr : List Bool)
  /-- `uartintr()`. -/
  | intr (lsr : List Bool)

namespace UartSys

/-- After `uartinit`, nothing accepted. -/
def boot : UartSys := ⟨Uart.init, []⟩

/-- One step; `none` when a `uartputc` finds the ring full. -/
@[grind] def step (s : UartSys) : UartEv → Option UartSys
  | .putc c lsr => (s.uart.uartputc c lsr).map fun u => ⟨u, s.accepted ++ [c]⟩
  | .intr lsr => some ⟨s.uart.uartintr lsr, s.accepted⟩

/-- The step relation. -/
def Step (s s' : UartSys) : Prop := ∃ e, s.step e = some s'

/-- The states some run from boot reaches. -/
def Reachable (s : UartSys) : Prop := Relation.ReflTransGen Step boot s

end UartSys

end Xv6
