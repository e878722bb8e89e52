/-
# CloudEtcd.Lease.Deadlines — the deadline that a TTL gives a lease.

A TTL is multiplied by a second in `int64` nanoseconds, once where a lease record is applied or replayed and
once where a lease is kept alive.  The product is exact up to 9223372036 seconds.  Beyond that it wraps, and
the deadline is always too early (`durationOfSeconds_lt`); for half of the range it lies in the past.
-/
import CloudEtcd.Lease.Lifetime

namespace CloudEtcd

open LeaseManager

/-- The largest TTL whose duration is an `int64`, in seconds. -/
def maxTTL : Int := 9223372036

theorem durationOfSeconds_eq {ttl : Int} (h0 : 0 ≤ ttl) (hmax : ttl ≤ maxTTL) :
    durationOfSeconds ttl = ttl * 10 ^ 9 := by
  unfold durationOfSeconds
  unfold maxTTL at hmax
  omega

/-- A duration that wraps is shorter than the TTL. -/
theorem durationOfSeconds_lt {ttl : Int} (h : maxTTL < ttl) :
    durationOfSeconds ttl < 2 ^ 63 ∧ 2 ^ 63 ≤ ttl * 10 ^ 9 := by
  unfold durationOfSeconds
  unfold maxTTL at h
  omega

/-- A deadline set at `now`: not before `now` and the TTL, or at the end of the time that 64 bits can count;
and the lease has not expired at once. -/
def InTime (now ttl deadline : Int) : Prop :=
  min (now + ttl * 10 ^ 9) (2 ^ 63 - 1) ≤ deadline ∧ now ≤ deadline

theorem inTime_iff {now ttl : Int} (hnow : IsInt64 now) (h0 : 0 ≤ ttl) :
    InTime now ttl (now + durationOfSeconds ttl) ↔
      ttl ≤ maxTTL ∨ 2 ^ 63 - 1 ≤ now + durationOfSeconds ttl := by
  obtain ⟨-, hlt⟩ := hnow
  unfold InTime
  rcases le_or_gt ttl maxTTL with hmax | hmax
  · rw [durationOfSeconds_eq h0 hmax]
    refine iff_of_true ⟨min_le_left _ _, by omega⟩ (Or.inl hmax)
  · obtain ⟨hshort, hlong⟩ := durationOfSeconds_lt hmax
    constructor
    · rintro ⟨hmin, -⟩
      exact Or.inr (by omega)
    · rintro (hle | hend)
      · omega
      · exact ⟨by omega, by omega⟩

/-- Wherever a TTL is turned into a deadline at `now`, it is in time: where a grant is applied or replayed,
and where the lease is kept alive. -/
def DeadlinesInTime (now ttl : Int) : Prop :=
  (∀ (m : LeaseManager) (env : LeaseEnv) (id : Int) (event : Event), env.now = now →
    parseLeaseKey event.kv.key = some id → event.type = .put →
    env.unmarshal event.kv.value = some ttl → ∃ lease,
      (m.onLogEvent env event).leases.lookup id = some lease ∧ lease.ttl = ttl ∧
      InTime now ttl lease.expiration) ∧
  ∀ (m m' : LeaseManager) (id : Int), m.leaseKeepAlive now id = some (m', ttl) → ∃ lease,
    m'.leases.lookup id = some lease ∧ lease.ttl = ttl ∧ InTime now ttl lease.expiration

namespace LeaseManager

variable {m m' : LeaseManager} {id ttl : Int}

/-- The lease that a record grants. -/
theorem lookup_granted {env : LeaseEnv} {event : Event} (hparse : parseLeaseKey event.kv.key = some id)
    (htype : event.type = .put) (hvalue : env.unmarshal event.kv.value = some ttl) :
    ∃ lease, (m.onLogEvent env event).leases.lookup id = some lease ∧ lease.ttl = ttl ∧
      lease.expiration = env.now + durationOfSeconds ttl := by
  rw [onLogEvent, hparse]
  dsimp only
  rw [onLeaseRecord, htype]
  dsimp only
  rw [hvalue]
  exact ⟨_, AList.lookup_insert _, rfl, rfl⟩

/-- The lease that a keepalive renews. -/
theorem lookup_renewed {now : Int} (h : m.leaseKeepAlive now id = some (m', ttl)) :
    ∃ lease, m'.leases.lookup id = some lease ∧ lease.ttl = ttl ∧
      lease.expiration = now + durationOfSeconds ttl := by
  unfold leaseKeepAlive at h
  split at h
  · cases h
  · obtain ⟨lease, -, heq⟩ := Option.map_eq_some_iff.mp h
    cases heq
    exact ⟨_, AList.lookup_insert _, rfl, rfl⟩

end LeaseManager

/-- The deadlines of a TTL are in time exactly if the TTL is at most `maxTTL`, or its wrapped duration leads
to the end of the time that 64 bits can count. -/
theorem deadlines_inTime_iff {now ttl : Int} (hnow : IsInt64 now) (h0 : 0 ≤ ttl) :
    DeadlinesInTime now ttl ↔ ttl ≤ maxTTL ∨ 2 ^ 63 - 1 ≤ now + durationOfSeconds ttl := by
  rw [← inTime_iff hnow h0]
  constructor
  · rintro ⟨hgrant, -⟩
    -- Any grant shows the deadline.
    have hparse : parseLeaseKey (grantEvent 7).kv.key = some 7 := parseLeaseKey_leaseKey (by decide)
    obtain ⟨lease, hlease, -, hin⟩ := hgrant new ⟨now, fun _ => some ttl⟩ 7 (grantEvent 7)
      rfl hparse rfl rfl
    obtain ⟨lease', hlease', -, hdeadline⟩ : ∃ lease, (new.onLogEvent
        ⟨now, fun _ => some ttl⟩ (grantEvent 7)).leases.lookup 7 = some lease ∧ lease.ttl = ttl ∧
        lease.expiration = now + durationOfSeconds ttl := lookup_granted hparse rfl rfl
    obtain rfl := Option.some.inj (hlease.symm.trans hlease')
    rwa [hdeadline] at hin
  · intro hin
    constructor
    · rintro m env id event rfl hparse htype hvalue
      obtain ⟨lease, hlease, hsame, hdeadline⟩ := lookup_granted (m := m) hparse htype hvalue
      exact ⟨lease, hlease, hsame, hdeadline.symm ▸ hin⟩
    · intro m m' id hrenew
      obtain ⟨lease, hlease, hsame, hdeadline⟩ := lookup_renewed hrenew
      exact ⟨lease, hlease, hsame, hdeadline.symm ▸ hin⟩

/-- A year, granted in 2026. -/
theorem deadlines_inTime_year : DeadlinesInTime (1790000000 * 10 ^ 9) 31536000 :=
  (deadlines_inTime_iff (by decide) (by decide)).mpr (Or.inl (by decide))

/-- With one second more than `maxTTL` the lease has expired when it is granted. -/
theorem deadline_wraps :
    ¬ DeadlinesInTime (1790000000 * 10 ^ 9) 9223372037 ∧
    (LeaseManager.new.onLogEvent ⟨1790000000 * 10 ^ 9, fun _ => some 9223372037⟩
      (grantEvent 7)).expired (1790000000 * 10 ^ 9) = [7] := by
  constructor
  · rintro ⟨hgrant, -⟩
    obtain ⟨lease, hlease, -, -, hafter⟩ := hgrant new
      ⟨1790000000 * 10 ^ 9, fun _ => some 9223372037⟩ 7 (grantEvent 7) rfl
      (parseLeaseKey_leaseKey (by decide)) rfl rfl
    have hvalue : ((new.onLogEvent ⟨1790000000 * 10 ^ 9, fun _ => some 9223372037⟩
        (grantEvent 7)).leases.lookup 7).map Lease.expiration = some (-7433372036709551616) := by
      decide +kernel
    rw [hlease] at hvalue
    have := Option.some.inj hvalue
    omega
  · decide +kernel

end CloudEtcd
