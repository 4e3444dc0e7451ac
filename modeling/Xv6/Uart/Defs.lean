import Mathlib

/-!
The UART's transmit side (kernel/uart.c): the ring `uart_tx_buf`, its
two 64-bit counters, and the bytes written to the transmit holding
register `THR`.

# Conventions

* `uart_tx_buf` is a map from cell to byte; the driver only touches
  cells `% UART_TX_BUF_SIZE`.
* The counters are the driver's `uint64`s, wrap included.
* Each `ReadReg(LSR)` of `uartstart` reads the `LSR_TX_IDLE` bit from
  a list, the hardware's answers in order; a read past the end of the
  list finds the transmitter busy.
* `thr` is what `uartstart` writes to `THR`, oldest first. The bytes
  `uartputc_sync` writes directly, and the receive side of
  `uartintr`, do not touch the ring and are left out.
* `uartputc` runs under `uart_tx_lock`, and so does `uartstart`; a turn
  of `uartputc`'s loop is one atomic step, and a full ring makes it
  sleep without a change (`none`). The `panicked` spin is left out.
-/

namespace Xv6

/-- `UART_TX_BUF_SIZE`. -/
def UART_TX_BUF_SIZE : Nat := 32

/-- The transmit state. -/
structure Uart where
  /-- `uart_tx_buf`. -/
  buf : Nat → UInt8
  /-- `uart_tx_w`: write next to `uart_tx_buf[uart_tx_w % UART_TX_BUF_SIZE]`. -/
  w : UInt64
  /-- `uart_tx_r`: read next from `uart_tx_buf[uart_tx_r % UART_TX_BUF_SIZE]`. -/
  r : UInt64
  /-- The bytes written to `THR`. -/
  thr : List UInt8

namespace Uart

/-- The driver after boot: the counters and the buffer are zero. -/
def init : Uart := ⟨fun _ => 0, 0, 0, []⟩

/-- `uartstart()`, the `LSR_TX_IDLE` bits of its reads in `lsr`: send
while the ring has a byte and the transmitter takes it. -/
def uartstart (u : Uart) : List Bool → Uart
  -- with no read left the transmitter is busy
  | [] => u
  | idle :: lsr =>
      if u.w = u.r then u
      else if idle then
        -- `c = uart_tx_buf[uart_tx_r % UART_TX_BUF_SIZE]; uart_tx_r += 1; WriteReg(THR, c)`
        uartstart { u with r := u.r + 1, thr := u.thr ++ [u.buf (u.r.toNat % UART_TX_BUF_SIZE)] } lsr
      else u

/-- A turn of `uartputc(c)`'s loop: `none` when the ring is full and
the caller sleeps on `uart_tx_r`. -/
def uartputc (u : Uart) (c : UInt8) (lsr : List Bool) : Option Uart :=
  if u.w = u.r + UART_TX_BUF_SIZE.toUInt64 then none
  else
    some (uartstart { u with buf := Function.update u.buf (u.w.toNat % UART_TX_BUF_SIZE) c, w := u.w + 1 } lsr)

/-- The transmit half of `uartintr()`. -/
def uartintr (u : Uart) (lsr : List Bool) : Uart := uartstart u lsr

end Uart

end Xv6
