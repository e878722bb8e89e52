/-
# CloudEtcd.Watch.Steps — what a step does to the calls and the watchers.

Every step lets the watchers move on (`onward_step`): a watcher stays with its callback, does not go back,
is not opened again, and comes to send only when a commit tells it of a new head.  The steps that no stream takes
itself pass nothing to a callback (`silent_step`), and those of calls and watchers leave the store alone
(`store_of_step`).
-/
import CloudEtcd.Watch.Delivery

namespace CloudEtcd

open MemoryWatcher
open Option (elim_some bind_eq_some_iff map_eq_some_iff)
open List (getElem?_set_ne length_set append_nil mem_of_getElem? mem_singleton)

/-! ## One watcher -/

namespace MemoryWatcher

variable {w w' w'' : MemoryWatcher}

/-- A watcher and what it has become. -/
structure Onward (w w' : MemoryWatcher) : Prop where
  callback : w'.callback = w.callback
  closed : w'.closed = false → w.closed = false
  advances : w.watchDoneRevision ≤ w'.watchDoneRevision
  ended : w.run = .ended → w'.run = .ended

theorem Frame.onward {taken : List WatchResponse} (h : w.Frame w' taken) : w.Onward w' :=
  ⟨h.callback, fun hopen => h.closed ▸ hopen, h.advances, fun hend => absurd hend h.running⟩

theorem onward_refl (w : MemoryWatcher) : w.Onward w := ⟨rfl, id, le_rfl, id⟩

theorem Onward.trans (h : w.Onward w') (h' : w'.Onward w'') : w.Onward w'' where
  callback := h'.callback.trans h.callback
  closed hopen := h.closed (h'.closed hopen)
  advances := h.advances.trans h'.advances
  ended hend := h'.ended (h.ended hend)

end MemoryWatcher

/-! ## Calls and watchers -/

namespace WatchState

variable {st st' st'' : WatchState}
variable {j : Nat} {w w' : MemoryWatcher}

/-- The call was made for the stream, or has returned a watcher of the stream. -/
def CallFor (st : WatchState) (k : Nat) : WatchCall → Prop
  | .begin _ callback | .checked _ callback | .locked _ callback | .headRead _ callback _ =>
    callback = k
  | .registered j _ => ∃ w, st.watchers[j]? = some w ∧ w.callback = k
  | .errCompacted _ | .errWatchId => True

/-- What a watcher has passed to the callback of a stream. -/
def sentTo (st : WatchState) (k j : Nat) : List Event :=
  st.watchers[j]?.elim [] fun w =>
    if w.callback = k then w.sent.flatMap WatchResponse.events else []

/-- The watchers that there were move on.  One that rests does so until a commit tells it of a new head. -/
def Onward (st st' : WatchState) : Prop :=
  ∀ (j : Nat) (w : MemoryWatcher), st.watchers[j]? = some w → ∃ w',
    st'.watchers[j]? = some w' ∧ w.Onward w' ∧ (st.notify = .looping j ∨ (w.Rests → w'.Rests))

/-- Calls and watchers stay with the stream that they are for. -/
structure Keeps (st st' : WatchState) : Prop where
  watchers : st.Onward st'
  fresh : ∀ (j : Nat) (w' : MemoryWatcher), st'.watchers[j]? = some w' → st.watchers[j]? = none →
    ∃ c ∈ st.calls, ∀ k, st.CallFor k c → w'.callback = k
  calls : ∀ (i : Nat) (c' : WatchCall), st'.calls[i]? = some c' → ∃ c, st.calls[i]? = some c ∧
    ∀ k, st.CallFor k c → st'.CallFor k c'
  length : st'.calls.length = st.calls.length

/-- A step in which no callback takes a response. -/
structure Silent (st st' : WatchState) : Prop extends Keeps st st' where
  sentTo : ∀ k j, st'.sentTo k j = st.sentTo k j

theorem CallFor.mono (h : st.Onward st') {k : Nat} {c : WatchCall} (hc : st.CallFor k c) :
    st'.CallFor k c := by
  cases c with
  | registered j pos =>
    obtain ⟨w, hw, hk⟩ := hc
    obtain ⟨w', hw', honward, -⟩ := h j w hw
    exact ⟨w', hw', honward.callback.trans hk⟩
  | begin _ _ | checked _ _ | locked _ _ | headRead _ _ _ | errCompacted _ | errWatchId => exact hc

/-- The watchers stay, and others may be added. -/
theorem Onward.of_eq (h : ∀ (j : Nat) (w : MemoryWatcher), st.watchers[j]? = some w →
    st'.watchers[j]? = some w) : st.Onward st' :=
  fun j w hw => ⟨w, h j w hw, w.onward_refl, Or.inr id⟩

theorem Silent.of_eq (hcalls : st'.calls = st.calls) (hwatchers : st'.watchers = st.watchers) :
    Silent st st' where
  watchers := Onward.of_eq fun _ _ hw => hwatchers ▸ hw
  fresh j w' hw' hnone := by
    rw [hwatchers, hnone] at hw'
    cases hw'
  calls i c' hc' := by
    rw [hcalls] at hc'
    exact ⟨c', hc', fun k hk => hk.mono (Onward.of_eq fun _ _ hw => hwatchers ▸ hw)⟩
  length := congrArg List.length hcalls
  sentTo k j := by rw [WatchState.sentTo, WatchState.sentTo, hwatchers]

section

variable (hw : st.watchers[j]? = some w)
include hw

section

variable (honward : w.Onward w')
include honward

theorem Keeps.setWatcher (hrests : st.notify = .looping j ∨ (w.Rests → w'.Rests)) :
    Keeps st (st.setWatcher j w') := by
  have hlt := (List.getElem?_eq_some_iff.mp hw).1
  have hwatchers : st.Onward (st.setWatcher j w') := by
    intro i v hv
    by_cases hij : j = i
    · subst hij
      obtain rfl := Option.some.inj (hw.symm.trans hv)
      exact ⟨w', List.getElem?_set_self hlt, honward, hrests⟩
    · exact ⟨v, (getElem?_set_ne hij).trans hv, v.onward_refl, Or.inr id⟩
  refine ⟨hwatchers, fun i v hv hnone => ?_, fun i c hc => ⟨c, hc, fun k hk => ?_⟩, rfl⟩
  · have hlen := (List.getElem?_eq_some_iff.mp hv).1
    rw [WatchState.setWatcher, length_set] at hlen
    exact absurd (List.getElem?_eq_none_iff.mp hnone) (not_le.mpr hlen)
  · exact hk.mono hwatchers

/-- What the callback of the watcher took goes to its stream, and nothing to any other. -/
theorem sentTo_setWatcher {taken : List WatchResponse} (hsent : w'.sent = w.sent ++ taken) (k i : Nat) :
    (st.setWatcher j w').sentTo k i = st.sentTo k i ++
      if w.callback = k ∧ j = i then taken.flatMap WatchResponse.events else [] := by
  have hlt := (List.getElem?_eq_some_iff.mp hw).1
  unfold sentTo setWatcher
  by_cases hij : j = i
  · subst hij
    rw [List.getElem?_set_self hlt, hw, elim_some, elim_some, honward.callback, hsent,
      List.flatMap_append]
    by_cases hk : w.callback = k <;> simp [hk]
  · simp [getElem?_set_ne hij, hij]

theorem Silent.setWatcher (hrests : st.notify = .looping j ∨ (w.Rests → w'.Rests))
    (hsent : w'.sent = w.sent) : Silent st (st.setWatcher j w') where
  toKeeps := Keeps.setWatcher hw honward hrests
  sentTo k i := by
    rw [sentTo_setWatcher hw honward (hsent.trans (append_nil _).symm)]
    simp

end

theorem Silent.of_frame (hframe : w.Frame w' []) : Silent st (st.setWatcher j w') :=
  Silent.setWatcher hw hframe.onward (Or.inr hframe.rests) (hframe.sent.trans (append_nil _))

end

theorem Silent.trans (h : Silent st st') (h' : Silent st' st'')
    (hlen : st'.watchers.length = st.watchers.length) (hnotify : st'.notify = st.notify) :
    Silent st st'' where
  watchers j w hw := by
    obtain ⟨w', hw', honward, hrests⟩ := h.watchers j w hw
    obtain ⟨w'', hw'', honward', hrests'⟩ := h'.watchers j w' hw'
    rw [hnotify] at hrests'
    exact ⟨w'', hw'', honward.trans honward',
      hrests.elim Or.inl fun hrests => hrests'.imp_right fun hrests' => hrests' ∘ hrests⟩
  fresh j w'' hw'' hnone := by
    have hnone' : st'.watchers[j]? = none := by
      rw [List.getElem?_eq_none_iff] at hnone ⊢
      omega
    obtain ⟨c', hc', hk'⟩ := h'.fresh j w'' hw'' hnone'
    obtain ⟨i, hi⟩ := List.getElem?_of_mem hc'
    obtain ⟨c, hc, hk⟩ := h.calls i c' hi
    exact ⟨c, mem_of_getElem? hc, fun k hck => hk' k (hk k hck)⟩
  calls i c'' hc'' := by
    obtain ⟨c', hc', hk'⟩ := h'.calls i c'' hc''
    obtain ⟨c, hc, hk⟩ := h.calls i c' hc'
    exact ⟨c, hc, fun k hck => hk' k (hk k hck)⟩
  length := h'.length.trans h.length
  sentTo k j := (h'.sentTo k j).trans (h.sentTo k j)

theorem Silent.setCall {i : Nat} {c c' : WatchCall} (hc : st.calls[i]? = some c)
    (hk : ∀ k, st.CallFor k c → st.CallFor k c') : Silent st (st.setCall i c') where
  watchers := Onward.of_eq fun _ _ hw => hw
  fresh j w' hw' hnone := absurd (hnone.symm.trans hw') nofun
  calls j d hd := by
    by_cases hij : i = j
    · subst hij
      rw [WatchState.setCall, List.getElem?_set_self (List.getElem?_eq_some_iff.mp hc).1] at hd
      obtain rfl := Option.some.inj hd
      exact ⟨c, hc, hk⟩
    · rw [WatchState.setCall, getElem?_set_ne hij] at hd
      exact ⟨d, hd, fun k hk => hk⟩
  length := length_set
  sentTo _ _ := rfl

theorem Silent.register {i : Nat} (hstep : st.register i = some st') : Silent st st' := by
  unfold WatchState.register at hstep
  split at hstep
  · next req callback pos hcall =>
    cases hstep
    have hwatchers : ∀ (j : Nat) (w : MemoryWatcher), st.watchers[j]? = some w →
        (st.watchers ++ [new req callback pos])[j]? = some w := fun j w hw =>
      (List.getElem?_append_left (List.getElem?_eq_some_iff.mp hw).1).trans hw
    have hfresh : ∀ (j : Nat) (w' : MemoryWatcher), st.watchers[j]? = none →
        (st.watchers ++ [new req callback pos])[j]? = some w' →
        w' = new req callback pos := fun j w' hnone hw' => by
      rw [List.getElem?_append_right (List.getElem?_eq_none_iff.mp hnone)] at hw'
      exact mem_singleton.mp (mem_of_getElem? hw')
    refine ⟨⟨Onward.of_eq hwatchers, fun j w' hw' hnone => ?_, fun j d hd => ?_, length_set⟩,
      fun k j => ?_⟩
    · obtain rfl := hfresh j w' hnone hw'
      exact ⟨_, mem_of_getElem? hcall, fun k hk => hk⟩
    · by_cases hij : i = j
      · subst hij
        rw [WatchState.setCall, List.getElem?_set_self (List.getElem?_eq_some_iff.mp hcall).1]
          at hd
        obtain rfl := Option.some.inj hd
        refine ⟨_, hcall, fun k hk => ⟨new req callback pos, ?_, hk⟩⟩
        simp
      · rw [WatchState.setCall, getElem?_set_ne hij] at hd
        exact ⟨d, hd, fun k hk => hk.mono (Onward.of_eq hwatchers)⟩
    · -- The new watcher has sent nothing.
      unfold WatchState.sentTo
      show ((st.watchers ++ [new req callback pos])[j]?).elim _ _ = _
      cases hw : st.watchers[j]? with
      | some w => rw [hwatchers j w hw]
      | none =>
        cases hw' : (st.watchers ++ [new req callback pos])[j]? with
        | none => rfl
        | some w' =>
          obtain rfl := hfresh j w' hw hw'
          simp [new]
  · cases hstep

variable {a : Action}

/-- The steps of the storage that the streams do not take themselves are silent. -/
theorem silent_step (hwatch : ∀ req callback, a ≠ .watch req callback)
    (hrespond : ∀ j taken, a ≠ .respond j taken) (hstep : st.step a = some st') : Silent st st' := by
  unfold step at hstep
  split at hstep
  · cases hstep
  · cases a with
    | watch req callback => exact absurd rfl (hwatch req callback)
    | respond j taken => exact absurd rfl (hrespond j taken)
    | register i => exact Silent.register hstep
    | commit batch =>
      simp only [move, commit] at hstep
      split at hstep <;> cases hstep
      exact Silent.of_eq rfl rfl
    | notifyStart =>
      simp only [move, notifyStart] at hstep
      split at hstep
      · split at hstep <;> cases hstep
        exact Silent.of_eq rfl rfl
      · cases hstep
    | notifyNext =>
      simp only [move, notifyNext] at hstep
      split at hstep
      · next n hn =>
        split at hstep
        · next w hw =>
          cases hstep
          have hsilent : Silent st
              (st.setWatcher n { w with logPosition := st.store.log.lastRevision }) :=
            Silent.setWatcher hw ⟨rfl, id, le_rfl, id⟩ (Or.inl hn) rfl
          exact ⟨⟨hsilent.watchers, hsilent.fresh, hsilent.calls, hsilent.length⟩,
            hsilent.sentTo⟩
        · cases hstep
          exact Silent.of_eq rfl rfl
      · cases hstep
    | rotate =>
      simp only [move] at hstep
      split at hstep <;> cases hstep
      exact Silent.of_eq rfl rfl
    | touch _ =>
      cases hstep
      exact Silent.of_eq rfl rfl
    | applyUpTo rev env fails =>
      simp only [move, applyUpTo] at hstep
      split at hstep <;> cases hstep
      exact Silent.of_eq rfl rfl
    | compact revision =>
      simp only [move, compact] at hstep
      split at hstep
      · split at hstep
        · cases hstep
        · split at hstep <;> cases hstep <;> exact Silent.of_eq rfl rfl
      · cases hstep
    | compactIndex =>
      obtain ⟨through, -, rfl⟩ := map_eq_some_iff.mp hstep
      exact Silent.of_eq rfl rfl
    | compactLog n =>
      simp only [move, compactLog] at hstep
      split at hstep <;> cases hstep
      exact Silent.of_eq rfl rfl
    | check i =>
      simp only [move, check] at hstep
      split at hstep
      · next hcall _ =>
        split at hstep
        · cases hstep
          exact Silent.setCall hcall fun _ _ => trivial
        · cases hstep
          exact Silent.setCall hcall fun _ hk => hk
      · cases hstep
    | lock i =>
      simp only [move, lock] at hstep
      split at hstep
      · next hcall =>
        split at hstep
        · cases hstep
        · split at hstep
          · cases hstep
            exact Silent.setCall hcall fun _ _ => trivial
          · cases hstep
            exact Silent.setCall hcall fun _ hk => hk
      · cases hstep
    | readHead i =>
      simp only [move, readHead] at hstep
      split at hstep
      · next hcall _ =>
        cases hstep
        exact Silent.setCall hcall fun _ hk => hk
      · cases hstep
    | startRun j =>
      obtain ⟨w, hw, hs⟩ := bind_eq_some_iff.mp hstep
      obtain ⟨w', hw', rfl⟩ := map_eq_some_iff.mp hs
      exact Silent.of_frame hw (start_frame hw')
    | wake j =>
      obtain ⟨w, hw, hs⟩ := bind_eq_some_iff.mp hstep
      obtain ⟨w', hw', rfl⟩ := map_eq_some_iff.mp hs
      exact Silent.of_frame hw (wake_frame hw')
    | collectNext j fails =>
      obtain ⟨w, hw, hs⟩ := bind_eq_some_iff.mp hstep
      obtain ⟨r, hr, rfl⟩ := map_eq_some_iff.mp hs
      cases r with
      | none => exact Silent.of_eq rfl rfl
      | some w' => exact Silent.of_frame hw (collectNext_frame hr)
    | stop j =>
      obtain ⟨w, hw, hs⟩ := bind_eq_some_iff.mp hstep
      obtain ⟨w', hw', rfl⟩ := map_eq_some_iff.mp hs
      exact Silent.of_frame hw (stop_frame hw')
    | close j =>
      obtain ⟨w, hw, rfl⟩ := map_eq_some_iff.mp hstep
      exact Silent.setWatcher hw ⟨rfl, (fun hopen => by cases hopen), le_rfl, id⟩ (Or.inr id) rfl

/-- Every step lets the watchers move on. -/
theorem onward_step (h : st.Inv) (hstep : st.step a = some st') : st.Onward st' := by
  by_cases hwatch : ∃ req callback, a = .watch req callback
  · obtain ⟨req, callback, rfl⟩ := hwatch
    unfold step at hstep
    split at hstep <;> cases hstep
    exact Onward.of_eq fun _ _ hw => hw
  · by_cases hrespond : ∃ j taken, a = .respond j taken
    · obtain ⟨j, taken, rfl⟩ := hrespond
      unfold step at hstep
      split at hstep
      · cases hstep
      · obtain ⟨w, hw, hs⟩ := bind_eq_some_iff.mp hstep
        obtain ⟨⟨w', resp⟩, hr, rfl⟩ := map_eq_some_iff.mp hs
        have hframe := (h.watchers w (mem_of_getElem? hw)).respond_frame hr
        exact (Keeps.setWatcher hw hframe.onward (Or.inr hframe.rests)).watchers
    · exact (silent_step (fun req callback heq => hwatch ⟨req, callback, heq⟩)
        (fun j taken heq => hrespond ⟨j, taken, heq⟩) hstep).watchers

/-! ## The store -/

/-- The steps of the store: the others are of calls and watchers. -/
def Action.ofStore : Action → Bool
  | .commit _ | .rotate | .touch _ | .applyUpTo _ _ _ | .compact _ | .compactIndex | .compactLog _ => true
  | _ => false

/-- A step of a call or a watcher leaves the store alone, and only a registration adds a watcher. -/
theorem store_of_step (ha : a.ofStore = false) (hstep : st.step a = some st') :
    st'.store = st.store ∧ st'.compacting = st.compacting ∧ st'.jobs = st.jobs ∧
      ((∀ i, a ≠ .register i) → st'.watchers.length = st.watchers.length) := by
  unfold step at hstep
  split at hstep
  · cases hstep
  · cases a with
    | commit _ | rotate | touch _ | applyUpTo _ _ _ | compact _ | compactIndex | compactLog _ => cases ha
    | notifyStart =>
      simp only [move, notifyStart] at hstep
      split at hstep
      · split at hstep <;> cases hstep
        exact ⟨rfl, rfl, rfl, fun _ => rfl⟩
      · cases hstep
    | notifyNext =>
      simp only [move, notifyNext] at hstep
      split at hstep
      · split at hstep <;> cases hstep
        · exact ⟨rfl, rfl, rfl, fun _ => length_set⟩
        · exact ⟨rfl, rfl, rfl, fun _ => rfl⟩
      · cases hstep
    | watch req callback =>
      cases hstep
      exact ⟨rfl, rfl, rfl, fun _ => rfl⟩
    | check i =>
      simp only [move, check] at hstep
      split at hstep
      · split at hstep <;> cases hstep <;> exact ⟨rfl, rfl, rfl, fun _ => rfl⟩
      · cases hstep
    | lock i =>
      simp only [move, lock] at hstep
      split at hstep
      · split at hstep
        · cases hstep
        · split at hstep <;> cases hstep <;> exact ⟨rfl, rfl, rfl, fun _ => rfl⟩
      · cases hstep
    | readHead i =>
      simp only [move, readHead] at hstep
      split at hstep <;> cases hstep
      exact ⟨rfl, rfl, rfl, fun _ => rfl⟩
    | register i =>
      simp only [move, register] at hstep
      split at hstep <;> cases hstep
      exact ⟨rfl, rfl, rfl, fun hne => absurd rfl (hne i)⟩
    | startRun j | wake j | stop j | respond j =>
      obtain ⟨w, -, hs⟩ := bind_eq_some_iff.mp hstep
      obtain ⟨w', -, rfl⟩ := map_eq_some_iff.mp hs
      exact ⟨rfl, rfl, rfl, fun _ => length_set⟩
    | collectNext j fails =>
      obtain ⟨w, -, hs⟩ := bind_eq_some_iff.mp hstep
      obtain ⟨r, -, rfl⟩ := map_eq_some_iff.mp hs
      cases r with
      | none => exact ⟨rfl, rfl, rfl, fun _ => rfl⟩
      | some w' => exact ⟨rfl, rfl, rfl, fun _ => length_set⟩
    | close j =>
      obtain ⟨w, -, rfl⟩ := map_eq_some_iff.mp hstep
      exact ⟨rfl, rfl, rfl, fun _ => length_set⟩

end WatchState

end CloudEtcd
