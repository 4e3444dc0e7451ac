import Xv6.Uart.System
import Xv6.Lib.Ring
import Xv6.Lib.Simulation

/-!
The UART's transmit ring, and what every run keeps of it.

The bytes in the ring are the `count = uart_tx_w - uart_tx_r` cells
after `uart_tx_r` (`queue`), on the ring of `Lib/Ring`; the distance is
taken in 64 bits, and as `UART_TX_BUF_SIZE` divides `2 ^ 64` the wrap
of either counter moves no cell. Storing a byte (`store`) appends to
the queue, and each byte `uartstart` sends moves from the front of the
queue to the end of `thr`: `uartstart` keeps `thr ++ queue`.

`UartInv` holds in every reachable state: the ring holds at most
`UART_TX_BUF_SIZE` bytes, the bytes written to `THR` followed by the
ring are the bytes accepted, in order, and `uart_tx_w` counts them
modulo `2 ^ 64` (`uart_tx_fifo`). The counters themselves wrap: after
`2 ^ 64` accepted bytes `uart_tx_w` is below `uart_tx_r`
(`uart_tx_counters_wrap`), while the FIFO order and the full and
empty tests, all read off the 64-bit distance, hold throughout.
-/

namespace Xv6

namespace Uart

/-- The number of bytes in the ring. -/
def count (u : Uart) : Nat := (u.w - u.r).toNat

/-- The bytes in the ring, oldest first. -/
def queue (u : Uart) : List UInt8 := Ring.view u.buf UART_TX_BUF_SIZE u.r.toNat u.count

/-- The ring after `uart_tx_buf[uart_tx_w % UART_TX_BUF_SIZE] = c; uart_tx_w += 1`. -/
def store (u : Uart) (c : UInt8) : Uart :=
  { u with buf := Function.update u.buf (u.w.toNat % UART_TX_BUF_SIZE) c, w := u.w + 1 }

/-- The driver after `uartstart` sent one byte. -/
def send (u : Uart) : Uart :=
  { u with r := u.r + 1, thr := u.thr ++ [u.buf (u.r.toNat % UART_TX_BUF_SIZE)] }

variable {u : Uart} {c : UInt8} {lsr : List Bool}

theorem uartputc_eq :
    u.uartputc c lsr = if u.w = u.r + UART_TX_BUF_SIZE.toUInt64 then none else some ((u.store c).uartstart lsr) :=
  rfl

theorem uartstart_cons (idle : Bool) :
    u.uartstart (idle :: lsr) = if u.w = u.r then u else if idle then u.send.uartstart lsr else u :=
  rfl

-- ====================================================== the 64-bit distance

theorem ring_dvd : UART_TX_BUF_SIZE ∣ 2 ^ 64 := by decide

/-- `uart_tx_w == uart_tx_r` tests for an empty ring. -/
theorem empty_iff : u.w = u.r ↔ u.count = 0 := by
  unfold count
  rw [UInt64.ext_iff, UInt64.toNat_sub]
  have := u.w.toNat_lt
  have := u.r.toNat_lt
  omega

/-- `uart_tx_w == uart_tx_r + UART_TX_BUF_SIZE` tests for a full ring. -/
theorem full_iff (h : u.count ≤ UART_TX_BUF_SIZE) :
    u.w = u.r + UART_TX_BUF_SIZE.toUInt64 ↔ u.count = UART_TX_BUF_SIZE := by
  unfold count UART_TX_BUF_SIZE at *
  rw [UInt64.ext_iff, UInt64.toNat_add]
  simp only [UInt64.toNat_sub] at *
  have := u.w.toNat_lt
  have := u.r.toNat_lt
  have h32 : (32 : Nat).toUInt64.toNat = 32 := rfl
  rw [h32]
  omega

/-- `uart_tx_w`'s cell is the one after the queue, across either wrap. -/
theorem w_mod : u.w.toNat % 2 ^ 64 = (u.r.toNat + u.count) % 2 ^ 64 := by
  unfold count
  rw [UInt64.toNat_sub]
  have := u.w.toNat_lt
  have := u.r.toNat_lt
  omega

-- ============================================================ one send, one store

theorem count_send (h : u.w ≠ u.r) : u.send.count + 1 = u.count := by
  have h' : u.w.toNat ≠ u.r.toNat := fun e => h (UInt64.ext_iff.2 e)
  unfold send count
  simp only [UInt64.toNat_sub, UInt64.toNat_add]
  have := u.w.toNat_lt
  have := u.r.toNat_lt
  have h1 : (1 : UInt64).toNat = 1 := rfl
  rw [h1]
  omega

/-- A send takes the front of the queue to the end of `thr`. -/
theorem queue_send (h : u.w ≠ u.r) : u.queue = u.buf (u.r.toNat % UART_TX_BUF_SIZE) :: u.send.queue := by
  have hr : (u.r + 1).toNat = (u.r.toNat + 1) % 2 ^ 64 := UInt64.toNat_add _ _
  unfold queue
  rw [← count_send h, Ring.view_pop_mod ring_dvd, ← hr]
  rfl

theorem pending_send (h : u.w ≠ u.r) : u.send.thr ++ u.send.queue = u.thr ++ u.queue := by
  rw [queue_send h]
  simp [send]

theorem count_store (h : u.count < UART_TX_BUF_SIZE) : (u.store c).count = u.count + 1 := by
  unfold store count UART_TX_BUF_SIZE at *
  simp only [UInt64.toNat_sub, UInt64.toNat_add] at *
  have := u.w.toNat_lt
  have := u.r.toNat_lt
  have h1 : (1 : UInt64).toNat = 1 := rfl
  rw [h1]
  omega

/-- A store into a ring with room appends to the queue. -/
theorem queue_store (h : u.count < UART_TX_BUF_SIZE) : (u.store c).queue = u.queue ++ [c] := by
  unfold queue
  rw [count_store h]
  exact Ring.view_push_mod ring_dvd w_mod h c

-- ================================================================ uartstart

/-- `uartstart` only sends: `thr ++ queue` stays as it is. -/
theorem pending_uartstart : ∀ (lsr : List Bool) (u : Uart),
    (u.uartstart lsr).thr ++ (u.uartstart lsr).queue = u.thr ++ u.queue
  | [], _ => rfl
  | idle :: lsr, u => by
      rw [uartstart_cons]
      split
      · rfl
      · rename_i h
        split
        · rw [pending_uartstart lsr, pending_send h]
        · rfl

theorem w_uartstart : ∀ (lsr : List Bool) (u : Uart), (u.uartstart lsr).w = u.w
  | [], _ => rfl
  | idle :: lsr, u => by
      rw [uartstart_cons]
      split
      · rfl
      · split
        · exact w_uartstart lsr _
        · rfl

theorem count_uartstart_le : ∀ (lsr : List Bool) (u : Uart), (u.uartstart lsr).count ≤ u.count
  | [], _ => Nat.le_refl _
  | idle :: lsr, u => by
      rw [uartstart_cons]
      split
      · exact Nat.le_refl _
      · rename_i h
        split
        · have := count_send h
          have := count_uartstart_le lsr u.send
          omega
        · exact Nat.le_refl _

end Uart

-- ==================================================================== runs

namespace UartSys

/-- What every reachable state keeps. -/
structure UartInv (s : UartSys) : Prop where
  bound : s.uart.count ≤ UART_TX_BUF_SIZE
  fifo : s.uart.thr ++ s.uart.queue = s.accepted
  w_eq : s.uart.w.toNat = s.accepted.length % 2 ^ 64

variable {s s' : UartSys}

theorem UartInv.boot : UartInv boot := ⟨by decide, rfl, rfl⟩

/-- A `uartstart` from either half keeps the invariant. -/
theorem UartInv.uartstart (hs : UartInv s) (lsr : List Bool) : UartInv ⟨s.uart.uartstart lsr, s.accepted⟩ :=
  ⟨Nat.le_trans (Uart.count_uartstart_le lsr s.uart) hs.bound,
    (Uart.pending_uartstart lsr s.uart).trans hs.fifo,
    (congrArg UInt64.toNat (Uart.w_uartstart lsr s.uart)).trans hs.w_eq⟩

/-- A byte stored into a ring with room keeps the invariant with the
byte accepted. -/
theorem UartInv.store (hs : UartInv s) (c : UInt8) (hroom : s.uart.count < UART_TX_BUF_SIZE) :
    UartInv ⟨s.uart.store c, s.accepted ++ [c]⟩ where
  bound := by
    rw [Uart.count_store hroom]
    exact hroom
  fifo := by
    show s.uart.thr ++ (s.uart.store c).queue = s.accepted ++ [c]
    rw [Uart.queue_store hroom, ← List.append_assoc, hs.fifo]
  w_eq := by
    show (s.uart.w + 1).toNat = (s.accepted ++ [c]).length % 2 ^ 64
    rw [UInt64.toNat_add, hs.w_eq, List.length_append, List.length_singleton]
    have h1 : (1 : UInt64).toNat = 1 := rfl
    rw [h1]
    omega

/-- The step lemma: a turn of `uartputc` that finds room stores and
starts sending, one that does not changes nothing; an interrupt sends. -/
theorem UartInv.step (hs : UartInv s) {e : UartEv} (he : s.step e = some s') : UartInv s' := by
  cases e with
  | putc c lsr =>
      simp only [UartSys.step, Uart.uartputc_eq] at he
      split at he
      · cases he
      · rename_i hfull
        simp only [Option.map_some, Option.some.injEq] at he
        subst he
        have hroom : s.uart.count < UART_TX_BUF_SIZE := by
          have := hs.bound
          have := (Uart.full_iff hs.bound).not.1 hfull
          omega
        exact (hs.store c hroom).uartstart lsr
  | intr lsr =>
      simp only [UartSys.step, Option.some.injEq] at he
      subst he
      exact hs.uartstart lsr

theorem UartInv.reach (h : s.Reachable) : UartInv s :=
  Relation.invariant_reach (fun _ _ hi ⟨_, he⟩ => hi.step he) UartInv.boot h

/-- For any interleaving of `uartputc` turns and interrupts, and the
transmitter idle at any reads: the ring holds at most
`UART_TX_BUF_SIZE` bytes by the 64-bit distance of the counters; the
bytes `uartstart` wrote to `THR`, then the bytes in the ring, are the
bytes `uartputc` accepted in acceptance order; and while fewer than
`2 ^ 64 - UART_TX_BUF_SIZE` bytes were accepted the counters are
ordered `uart_tx_r ≤ uart_tx_w ≤ uart_tx_r + UART_TX_BUF_SIZE`. -/
theorem uart_tx_fifo (h : s.Reachable) :
    (s.uart.w - s.uart.r).toNat ≤ UART_TX_BUF_SIZE ∧ s.uart.thr ++ s.uart.queue = s.accepted ∧
      (s.accepted.length + UART_TX_BUF_SIZE < 2 ^ 64 →
        s.uart.r ≤ s.uart.w ∧ s.uart.w ≤ s.uart.r + UART_TX_BUF_SIZE.toUInt64) := by
  have hs := UartInv.reach h
  refine ⟨hs.bound, hs.fifo, fun hlen => ?_⟩
  -- the lengths: `thr` and the ring make up what was accepted
  have hlen' : s.uart.thr.length + s.uart.count = s.accepted.length := by
    rw [← hs.fifo, List.length_append, Uart.queue, Ring.length_view]
  have hb := hs.bound
  have hw := hs.w_eq
  have hwl := s.uart.w.toNat_lt
  have hrl := s.uart.r.toNat_lt
  unfold Uart.count UART_TX_BUF_SIZE at *
  rw [UInt64.toNat_sub] at hb hlen'
  rw [UInt64.le_iff_toNat_le, UInt64.le_iff_toNat_le, UInt64.toNat_add]
  have h32 : (32 : Nat).toUInt64.toNat = 32 := rfl
  rw [h32]
  omega

theorem uart_tx_fifo_boot :
    boot.Reachable ∧ (boot.uart.w - boot.uart.r).toNat ≤ UART_TX_BUF_SIZE ∧
      boot.uart.thr ++ boot.uart.queue = boot.accepted ∧
      (boot.accepted.length + UART_TX_BUF_SIZE < 2 ^ 64 →
        boot.uart.r ≤ boot.uart.w ∧ boot.uart.w ≤ boot.uart.r + UART_TX_BUF_SIZE.toUInt64) :=
  ⟨.refl, uart_tx_fifo .refl⟩

-- ============================================================ the wrap

/-- A `uartputc(c)` into an empty ring, the transmitter idle: the byte
goes straight to `THR` and both counters move by one. -/
theorem step_putc_idle (h : s.uart.w = s.uart.r) (c : UInt8) :
    ∃ s', s.step (.putc c [true]) = some s' ∧ s'.uart.w = s.uart.w + 1 ∧ s'.uart.r = s.uart.r + 1 := by
  have hfull : s.uart.w ≠ s.uart.r + UART_TX_BUF_SIZE.toUInt64 := by
    rw [h, Ne, UInt64.ext_iff, UInt64.toNat_add]
    have := s.uart.r.toNat_lt
    have h32 : UART_TX_BUF_SIZE.toUInt64.toNat = 32 := rfl
    rw [h32]
    omega
  have hne : (s.uart.store c).w ≠ (s.uart.store c).r := by
    show s.uart.w + 1 ≠ s.uart.r
    rw [h, Ne, UInt64.ext_iff, UInt64.toNat_add]
    have := s.uart.r.toNat_lt
    have h1 : (1 : UInt64).toNat = 1 := rfl
    rw [h1]
    omega
  refine ⟨⟨(s.uart.store c).send, s.accepted ++ [c]⟩, ?_, rfl, rfl⟩
  simp only [step, Uart.uartputc_eq, if_neg hfull, Uart.uartstart_cons, if_neg hne, if_true, Option.map_some]
  rfl

/-- Every count of bytes can be sent through: some run accepts and
sends `n` bytes and leaves the ring empty, `uart_tx_w` at `n` modulo
`2 ^ 64`. -/
theorem reach_drained : ∀ n : Nat, ∃ s : UartSys, s.Reachable ∧ s.uart.w = s.uart.r ∧ s.uart.w.toNat = n % 2 ^ 64
  | 0 => ⟨boot, .refl, rfl, rfl⟩
  | n + 1 => by
      obtain ⟨s, hs, heq, hn⟩ := reach_drained n
      obtain ⟨s', hstep, hw, hr⟩ := step_putc_idle heq 0
      refine ⟨s', hs.tail ⟨_, hstep⟩, by rw [hw, hr, heq], ?_⟩
      rw [hw, UInt64.toNat_add, hn]
      have h1 : (1 : UInt64).toNat = 1 := rfl
      rw [h1]
      omega

/-- After `2 ^ 64` accepted bytes `uart_tx_w` wraps below `uart_tx_r`:
drain `2 ^ 64 - 1` bytes, then accept one more while the transmitter
is busy. -/
theorem uart_tx_counters_wrap : ∃ s : UartSys, s.Reachable ∧ s.uart.w < s.uart.r := by
  obtain ⟨s, hs, heq, hn⟩ := reach_drained (2 ^ 64 - 1)
  have hfull : s.uart.w ≠ s.uart.r + UART_TX_BUF_SIZE.toUInt64 := by
    rw [← heq, Ne, UInt64.ext_iff, UInt64.toNat_add, hn]
    have h32 : UART_TX_BUF_SIZE.toUInt64.toNat = 32 := rfl
    rw [h32]
    omega
  refine ⟨⟨s.uart.store 0, s.accepted ++ [0]⟩, hs.tail ⟨.putc 0 [], ?_⟩, ?_⟩
  · simp only [step, Uart.uartputc_eq, if_neg hfull, Option.map_some]
    rfl
  · show s.uart.w + 1 < s.uart.r
    rw [← heq, UInt64.lt_iff_toNat_lt, UInt64.toNat_add, hn]
    have h1 : (1 : UInt64).toNat = 1 := rfl
    rw [h1]
    omega

end UartSys

end Xv6
