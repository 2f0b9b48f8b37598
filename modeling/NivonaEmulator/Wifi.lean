import NivonaEmulator.Lib.Runs
import Mathlib.Data.List.Induction
import Mathlib.Order.Lattice

/-!
# The WiFi reconnect

The event handler of the station, the one-shot timer it arms after a
disconnect, and the delays over outages of any length.
-/

namespace Nivona

/-- The reconnect timer. -/
inductive ReconnectTimer where
  | notCreated
  | idle
  | armed (us : UInt64)
deriving DecidableEq, Repr

namespace ReconnectTimer

/-- `esp_timer_stop`: an error, without effect, unless the timer is armed. -/
def stop : ReconnectTimer → ReconnectTimer
  | armed _ => idle
  | t => t

/-- `esp_timer_start_once`: an error, without effect, when the timer is armed. -/
def startOnce (us : UInt64) : ReconnectTimer → ReconnectTimer
  | idle => armed us
  | t => t

end ReconnectTimer

/-- The static variables of the module, and the number of calls of `esp_wifi_connect`. -/
structure Wifi where
  connected : Bool := false
  consecutiveFailures : UInt8 := 0
  reconnectTimer : ReconnectTimer := .notCreated
  connects : ℕ := 0
deriving DecidableEq, Repr

/-- What the system event loop and the timer task deliver. -/
inductive WifiEvent where
  | staStart
  | staDisconnected
  | staGotIp
  /-- any other event of the WiFi driver -/
  | otherWifi
  /-- the reconnect timer runs out -/
  | reconnectTimerCb
deriving DecidableEq, Repr

/-- `esp_wifi_connect()`. -/
def Wifi.connect (w : Wifi) : Wifi :=
  { w with connects := w.connects + 1 }

/-- The delay of the reconnect after so many failures. -/
def backoffMs (failures : UInt8) : UInt32 :=
  let delayMs := 500 * failures.toUInt32
  if delayMs > 30000 then 30000 else delayMs

/-- `nivona_wifi_init`: the timer is created before the handlers are registered. -/
def nivonaWifiInit : Wifi :=
  { reconnectTimer := .idle }

/-- `event_handler` on a disconnect. -/
def Wifi.staDisconnected (w : Wifi) : Wifi :=
  let w := { w with connected := false, consecutiveFailures := w.consecutiveFailures + 1 }
  let delayMs := backoffMs w.consecutiveFailures
  if delayMs = 0 then
    w.connect
  else if w.reconnectTimer ≠ .notCreated then
    { w with reconnectTimer := w.reconnectTimer.stop.startOnce (delayMs.toUInt64 * 1000) }
  else
    w.connect

/-- `event_handler`, and the callback of the timer. -/
def Wifi.eventHandler (w : Wifi) : WifiEvent → Wifi
  | .staStart => w.connect
  | .staDisconnected => w.staDisconnected
  | .staGotIp => { w with consecutiveFailures := 0, connected := true }
  | .otherWifi => w
  | .reconnectTimerCb =>
      match w.reconnectTimer with
      | .armed _ => { w with reconnectTimer := .idle }.connect
      | _ => w

/-- The state after a sequence of events. -/
def Wifi.run (w : Wifi) (events : List WifiEvent) : Wifi :=
  Runs.run Wifi.eventHandler w events

/-- The number of disconnects since the last got-IP event. -/
def disconnectsSinceIp (events : List WifiEvent) : ℕ :=
  events.foldl (fun n event =>
    match event with
    | .staDisconnected => n + 1
    | .staGotIp => 0
    | _ => n) 0

theorem disconnectsSinceIp_append (events : List WifiEvent) (event : WifiEvent) :
    disconnectsSinceIp (events ++ [event]) =
      match event with
      | .staDisconnected => disconnectsSinceIp events + 1
      | .staGotIp => 0
      | _ => disconnectsSinceIp events := by
  simp [disconnectsSinceIp]

/-- The handler of a disconnect after `events` leaves the reconnect to the timer, to run out
after `ms`. -/
def SchedulesAfter (events : List WifiEvent) (ms : ℕ) : Prop :=
  let before := nivonaWifiInit.run events
  let after := before.eventHandler .staDisconnected
  after.connects = before.connects ∧
    ∃ us : UInt64, after.reconnectTimer = .armed us ∧ us.toNat = 1000 * ms

/-! ## The failure count over a run -/

/-- Past the initialisation the timer exists, and the count is the number of disconnects
since the last got-IP event, in eight bits. -/
structure Wifi.Counts (n : ℕ) (w : Wifi) : Prop where
  failures_eq : w.consecutiveFailures = UInt8.ofNat n
  timer_ne : w.reconnectTimer ≠ .notCreated

theorem ReconnectTimer.stop_startOnce {t : ReconnectTimer} (ht : t ≠ .notCreated) (us : UInt64) :
    t.stop.startOnce us = .armed us := by
  cases t with
  | notCreated => exact absurd rfl ht
  | idle => rfl
  | armed old => rfl

/-- What the handler of a disconnect does when the timer exists. -/
theorem Wifi.staDisconnected_eq {w : Wifi} (ht : w.reconnectTimer ≠ .notCreated) :
    w.staDisconnected =
      if backoffMs (w.consecutiveFailures + 1) = 0 then
        { w with connected := false, consecutiveFailures := w.consecutiveFailures + 1,
                 connects := w.connects + 1 }
      else
        { w with connected := false, consecutiveFailures := w.consecutiveFailures + 1,
                 reconnectTimer :=
                  .armed ((backoffMs (w.consecutiveFailures + 1)).toUInt64 * 1000) } := by
  simp only [staDisconnected, connect, ne_eq, ht, not_false_eq_true, if_true,
    ReconnectTimer.stop_startOnce ht]

namespace Wifi.Counts

theorem init : Counts 0 nivonaWifiInit :=
  { failures_eq := rfl
    timer_ne := by decide }

/-- One event. -/
theorem eventHandler {n : ℕ} {w : Wifi} (h : Counts n w) (event : WifiEvent) :
    Counts (match event with
      | .staDisconnected => n + 1
      | .staGotIp => 0
      | _ => n) (w.eventHandler event) := by
  cases event with
  | staStart => exact ⟨h.failures_eq, h.timer_ne⟩
  | staDisconnected =>
      have hcount : w.consecutiveFailures + 1 = UInt8.ofNat (n + 1) := by
        rw [h.failures_eq, UInt8.ofNat_add]
        rfl
      change Counts (n + 1) w.staDisconnected
      rw [staDisconnected_eq h.timer_ne]
      split
      · exact ⟨hcount, h.timer_ne⟩
      · exact ⟨hcount, by simp⟩
  | staGotIp => exact ⟨rfl, h.timer_ne⟩
  | otherWifi => exact h
  | reconnectTimerCb =>
      simp only [Wifi.eventHandler]
      split
      · exact ⟨h.failures_eq, by simp [connect]⟩
      · exact h

/-- A whole run. -/
theorem run (events : List WifiEvent) :
    Counts (disconnectsSinceIp events) (nivonaWifiInit.run events) := by
  induction events using List.reverseRecOn with
  | nil => exact init
  | append_singleton events event ih =>
      rw [disconnectsSinceIp_append, Wifi.run, Runs.run_append]
      exact ih.eventHandler event

end Wifi.Counts

/-! ## The delays -/

/-- The delay as a number: the count in eight bits, times 500, capped. -/
theorem toNat_backoffMs (n : ℕ) :
    (backoffMs (UInt8.ofNat n)).toNat = min (500 * (n % 256)) 30000 := by
  have hcount : (UInt8.ofNat n).toUInt32.toNat = n % 256 := by simp
  have hlt : n % 256 < 256 := Nat.mod_lt n (by decide)
  have hmul : (500 * (UInt8.ofNat n).toUInt32).toNat = 500 * (n % 256) := by
    rw [UInt32.toNat_mul, hcount, show (500 : UInt32).toNat = 500 from rfl]
    exact Nat.mod_eq_of_lt (by omega)
  simp only [backoffMs, gt_iff_lt, UInt32.lt_iff_toNat_lt, hmul,
    show (30000 : UInt32).toNat = 30000 from rfl]
  split
  · simp only [show (30000 : UInt32).toNat = 30000 from rfl]
    omega
  · rw [hmul]
    omega

/-- The handler of the `n`-th disconnect arms the timer with the delay of `n` in eight bits,
unless that is zero. -/
theorem schedulesAfter_iff_backoff (events : List WifiEvent) (ms : ℕ) :
    SchedulesAfter events ms ↔
      0 < (disconnectsSinceIp events + 1) % 256 ∧
        ms = min (500 * ((disconnectsSinceIp events + 1) % 256)) 30000 := by
  have hcounts := Wifi.Counts.run events
  have hdelay := toNat_backoffMs (disconnectsSinceIp events + 1)
  have hcount : (nivonaWifiInit.run events).consecutiveFailures + 1 =
      UInt8.ofNat (disconnectsSinceIp events + 1) := by
    rw [hcounts.failures_eq, UInt8.ofNat_add]
    rfl
  have hzero : backoffMs (UInt8.ofNat (disconnectsSinceIp events + 1)) = 0 ↔
      (disconnectsSinceIp events + 1) % 256 = 0 := by
    rw [← UInt32.toNat_inj, hdelay, show (0 : UInt32).toNat = 0 from rfl]
    omega
  have harmed : ((backoffMs (UInt8.ofNat (disconnectsSinceIp events + 1))).toUInt64 * 1000).toNat =
      1000 * min (500 * ((disconnectsSinceIp events + 1) % 256)) 30000 := by
    rw [UInt64.toNat_mul, UInt32.toNat_toUInt64, hdelay, show (1000 : UInt64).toNat = 1000 from rfl]
    omega
  simp only [SchedulesAfter, Wifi.eventHandler]
  rw [Wifi.staDisconnected_eq hcounts.timer_ne, hcount]
  by_cases h0 : (disconnectsSinceIp events + 1) % 256 = 0
  · rw [if_pos (hzero.mpr h0)]
    constructor
    · rintro ⟨hconnects, -⟩
      exact absurd hconnects (Nat.succ_ne_self _)
    · rintro ⟨hpos, -⟩
      omega
  · rw [if_neg (fun h => h0 (hzero.mp h))]
    constructor
    · rintro ⟨-, us, hus, hms⟩
      rw [← ReconnectTimer.armed.inj hus, harmed] at hms
      exact ⟨Nat.pos_of_ne_zero h0, by omega⟩
    · rintro ⟨-, rfl⟩
      exact ⟨rfl, _, rfl, harmed⟩

/-- Within one outage the count of disconnects goes up. -/
theorem disconnectsSinceIp_le_append (events later : List WifiEvent)
    (hlater : WifiEvent.staGotIp ∉ later) :
    disconnectsSinceIp events ≤ disconnectsSinceIp (events ++ later) := by
  induction later using List.reverseRecOn with
  | nil => simp
  | append_singleton later event ih =>
      rw [← List.append_assoc, disconnectsSinceIp_append]
      have hprev := ih (fun hmem => hlater (List.mem_append_left _ hmem))
      cases event with
      | staGotIp => exact absurd (by simp) hlater
      | staDisconnected => exact Nat.le_succ_of_le hprev
      | staStart => exact hprev
      | otherWifi => exact hprev
      | reconnectTimerCb => exact hprev

/-- A disconnect whose delay the eight-bit count does not shorten. -/
def BackoffKept (n : ℕ) : Prop :=
  n ≤ 255 ∨ 60 ≤ n % 256

theorem schedulesAfter_iff_kept (events : List WifiEvent) :
    SchedulesAfter events (min (500 * (disconnectsSinceIp events + 1)) 30000) ↔
      BackoffKept (disconnectsSinceIp events + 1) := by
  rw [schedulesAfter_iff_backoff, BackoffKept]
  omega

/-- The back-off of a disconnect is the documented one exactly when its number in the outage
still fits the count, or leaves a remainder that reaches the cap; over such disconnects of one
outage the delay never goes down. -/
theorem backoff_iff (events : List WifiEvent) :
    (SchedulesAfter events (min (500 * (disconnectsSinceIp events + 1)) 30000) ↔
        BackoffKept (disconnectsSinceIp events + 1)) ∧
      (∀ later, WifiEvent.staGotIp ∉ later → BackoffKept (disconnectsSinceIp events + 1) →
        BackoffKept (disconnectsSinceIp (events ++ later) + 1) →
        ∃ ms ms', SchedulesAfter events ms ∧ SchedulesAfter (events ++ later) ms' ∧ ms ≤ ms') := by
  refine ⟨schedulesAfter_iff_kept events, fun later hlater hkept hkept' => ?_⟩
  have hle := disconnectsSinceIp_le_append events later hlater
  exact ⟨_, _, (schedulesAfter_iff_kept events).mpr hkept,
    (schedulesAfter_iff_kept _).mpr hkept', by omega⟩

theorem disconnectsSinceIp_replicate (n : ℕ) :
    disconnectsSinceIp (List.replicate n .staDisconnected) = n := by
  induction n with
  | zero => rfl
  | succ n ih => rw [List.replicate_succ', disconnectsSinceIp_append, ih]

/-- The 256th disconnect of an outage reconnects at once. -/
theorem backoff_collapses :
    ¬∀ events : List WifiEvent,
      SchedulesAfter events (min (500 * (disconnectsSinceIp events + 1)) 30000) := by
  intro h
  have hlong := (schedulesAfter_iff_backoff _ _).mp (h (List.replicate 255 .staDisconnected))
  rw [disconnectsSinceIp_replicate] at hlong
  exact absurd hlong.1 (by decide)

end Nivona
