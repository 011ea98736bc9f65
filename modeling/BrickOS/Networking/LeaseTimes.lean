import BrickOS.Networking.DhcpLease

/-! The times of a lease: its end, its renewal and its rebinding in ticks, and the tick at which
the callback registered for it comes due first. -/
namespace BrickOS.Processes

variable {α : Type} {cb : TimerCallback α} {n : ℕ}

namespace TimerCallback

def after (cb : TimerCallback α) (n : ℕ) : TimerCallback α := (fun cb => cb.tick.1)^[n] cb

def FirstFires (cb : TimerCallback α) (n : ℕ) : Prop :=
  0 < n ∧ (cb.after (n - 1)).tick.2 = true ∧ ∀ k < n - 1, (cb.after k).tick.2 = false

theorem after_eq (hstart : cb.runningTicks = 0) (hlt : cb.periodTicks < 2 ^ 32)
    (hn : n = 0 ∨ n < cb.periodTicks) : cb.after n = { cb with runningTicks := n } := by
  induction n with
  | zero => exact congrArg (TimerCallback.mk cb.callback cb.periodTicks) hstart
  | succ n ih =>
    rw [after, Function.iterate_succ_apply', ← after, ih (by omega), tick,
      if_neg (by dsimp only; omega)]
    dsimp only
    rw [Nat.mod_eq_of_lt (by omega)]

/-- A callback of period 0 comes due in the first tick too. -/
theorem firstFires_max (hstart : cb.runningTicks = 0) (hlt : cb.periodTicks < 2 ^ 32) :
    cb.FirstFires (max 1 cb.periodTicks) := by
  refine ⟨by omega, ?_, fun k hk => ?_⟩
  · rw [after_eq hstart hlt (by omega), tick, if_pos (by dsimp only; omega)]
  · rw [after_eq hstart hlt (by omega), tick, if_neg (by dsimp only; omega)]

theorem FirstFires.unique {m : ℕ} (hn : cb.FirstFires n) (hm : cb.FirstFires m) : n = m := by
  obtain ⟨hn0, hn, hnlt⟩ := hn
  obtain ⟨hm0, hm, hmlt⟩ := hm
  obtain h | h | h := lt_trichotomy (n - 1) (m - 1)
  · cases hn.symm.trans (hmlt _ h)
  · omega
  · cases hm.symm.trans (hnlt _ h)

end TimerCallback

end BrickOS.Processes

namespace BrickOS.Networking.DhcpHost
open BrickOS.Processes

/-- The interface is configured with the times that the lease asks for, and the callback that is
registered for it comes due between the renewal and the end of the lease. -/
structure LeaseTimed (s : DhcpHost) (iface : ℕ) (info : DhcpOptionInfo) (client : DhcpClient) :
    Prop where
  leaseEnd : client.leaseEnd = s.ticks + 100 * info.leaseTime
  renewalTimestamp : client.renewalTimestamp = s.ticks + 100 * (info.leaseTime / 2)
  rebindTimestamp : client.rebindTimestamp = s.ticks + 100 * (7 * info.leaseTime / 8)
  ordered : s.ticks ≤ client.renewalTimestamp ∧
    client.renewalTimestamp ≤ client.rebindTimestamp ∧ client.rebindTimestamp ≤ client.leaseEnd
  fires : ∃ cb n, ((s.dhcpConfigureIface iface info).registerRenewer
      (renewerPeriodMs info.leaseTime)).timers = s.timers ++ [cb] ∧ cb.FirstFires n ∧
    client.renewalTimestamp ≤ s.ticks + n ∧ s.ticks + n ≤ client.leaseEnd

theorem msToTicks32_lt (ms : ℕ) : msToTicks32 ms ≤ 4294967 := by
  unfold msToTicks32
  omega

theorem registered_timers (s : DhcpHost) (iface : ℕ) (info : DhcpOptionInfo) :
    ((s.dhcpConfigureIface iface info).registerRenewer (renewerPeriodMs info.leaseTime)).timers =
      s.timers ++ [⟨.dhcpLeaseRenewer, msToTicks32 (renewerPeriodMs info.leaseTime), 0⟩] := rfl

/-- The times are right for the leases of at most a little less than a day, the empty one
excepted. -/
theorem leaseTimed_iff (s : DhcpHost) (iface : ℕ) (info : DhcpOptionInfo) :
    s.LeaseTimed iface info ((s.dhcpConfigureIface iface info).client iface) ↔
      0 < info.leaseTime ∧ info.leaseTime ≤ maxLeaseTime := by
  have hclient : (s.dhcpConfigureIface iface info).client iface =
      { state := .bound
        serverAddr := info.serverIpAddr
        routerAddr := info.routerAddr
        subnetMask := info.subnetMask
        leaseEnd := s.ticks + secsToTicks info.leaseTime
        renewalTimestamp := s.ticks + secsToTicks (info.leaseTime / 2)
        rebindTimestamp := s.ticks + secsToTicks (info.leaseTime * 7 % 2 ^ 32 / 8) } :=
    Function.update_self ..
  have hperiod := msToTicks32_lt (renewerPeriodMs info.leaseTime)
  rw [hclient]
  constructor
  · intro h
    obtain ⟨cb, n, htimers, hn, hlo, hhi⟩ := h.fires
    have hrenewal := h.renewalTimestamp
    have hend := h.leaseEnd
    rw [registered_timers] at htimers
    cases List.append_cancel_left htimers
    obtain rfl := hn.unique (TimerCallback.firstFires_max rfl (by dsimp only; omega))
    dsimp only at hlo hhi hrenewal hend
    unfold maxLeaseTime
    omega
  · rintro ⟨hpos, hle⟩
    have hticks := renewerPeriod_ticks hle
    unfold maxLeaseTime at hle
    have hseven : info.leaseTime * 7 % 2 ^ 32 / 8 = 7 * info.leaseTime / 8 := by omega
    have hsecs : ∀ secs ≤ info.leaseTime, secsToTicks secs = 100 * secs := by
      intro secs hsecs
      unfold secsToTicks desiredStandardFreq
      omega
    rw [hseven, hsecs _ le_rfl, hsecs _ (by omega), hsecs _ (by omega)]
    refine ⟨rfl, rfl, rfl, by dsimp only; omega, _, _, registered_timers s iface info,
      TimerCallback.firstFires_max rfl (by dsimp only; omega), ?_, ?_⟩
    · dsimp only
      omega
    · dsimp only
      omega

/-- The timestamps of a lease of a day are right, but its callback comes due after four minutes. -/
theorem not_leaseTimed_day : ¬ fresh.LeaseTimed eth0 ⟨0, 0, 0, 0, 86400⟩
    ((fresh.dhcpConfigureIface eth0 ⟨0, 0, 0, 0, 86400⟩).client eth0) := by
  intro h
  obtain ⟨cb, n, htimers, hn, hlo, -⟩ := h.fires
  cases List.append_cancel_left ((registered_timers ..).symm.trans htimers)
  cases hn.unique (TimerCallback.firstFires_max rfl (by decide))
  revert hlo
  decide

end BrickOS.Networking.DhcpHost
