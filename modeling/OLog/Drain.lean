import OLog.Tracker

/-!
The drain loop in closed form. The loop pops the queue's top as long as it is
not after the expected tick; the result is that the expected tick moves to the
first gap, the feeds up to the gap are released in queue order, and the others
stay. Released feeds are looked up in `sf_to_m`, so the closed form assumes
that releasing them succeeds; ownership provides that.
-/

namespace OLog

open Lib DeficiencyProcessor

def timesOf (l : List FeedRef) : Finset Int := (l.map FeedRef.exchangeTimestamp).toFinset

theorem mem_timesOf {l : List FeedRef} {t : Int} :
    t ∈ timesOf l ↔ ∃ r ∈ l, r.exchangeTimestamp = t := by
  simp [timesOf]

/-- How often the loop accepts a top as the expected tick. -/
def drainCount (l : List FeedRef) (et : Int) : Nat := gapIndex (timesOf l) et interval_pos

/-- Where the loop leaves the expected tick. -/
def drainGap (l : List FeedRef) (et : Int) : Int := tick et interval (drainCount l et)

theorem drainCount_cons_expected {top : FeedRef} {rest : List FeedRef} {et : Int}
    (ht : top.exchangeTimestamp = et) :
    drainCount (top :: rest) et = drainCount rest (et + interval) + 1 := by
  have hmem : et ∈ timesOf (top :: rest) := mem_timesOf.mpr ⟨top, by simp, ht⟩
  have hcongr : gapIndex (timesOf (top :: rest)) (et + interval) interval_pos =
      gapIndex (timesOf rest) (et + interval) interval_pos := by
    apply gapIndex_congr
    intro t hle
    have hne : t ≠ top.exchangeTimestamp := by
      have := interval_pos
      omega
    simp [timesOf, hne]
  unfold drainCount
  rw [gapIndex_of_mem interval_pos hmem, hcongr]

theorem drainCount_cons_stale {top : FeedRef} {rest : List FeedRef} {et : Int}
    (ht : top.exchangeTimestamp < et) : drainCount (top :: rest) et = drainCount rest et := by
  apply gapIndex_congr
  intro t hle
  have hne : t ≠ top.exchangeTimestamp := by omega
  simp [timesOf, hne]

theorem drainCount_cons_early {top : FeedRef} {rest : List FeedRef} {et : Int}
    (hsorted : (top :: rest).Pairwise (KeyLE FeedRef.exchangeTimestamp))
    (ht : et < top.exchangeTimestamp) : drainCount (top :: rest) et = 0 := by
  apply gapIndex_of_notMem
  intro hmem
  obtain ⟨r, hr, heq⟩ := mem_timesOf.mp hmem
  rcases List.mem_cons.mp hr with rfl | hrest
  · omega
  · have hle := MinQueue.head_le hsorted hrest
    omega

theorem drainCount_nil (et : Int) : drainCount [] et = 0 := by
  apply gapIndex_of_notMem
  simp [timesOf]

theorem le_drainGap (l : List FeedRef) (et : Int) : et ≤ drainGap l et :=
  le_tick et interval_pos _

theorem drainGap_cons_expected {top : FeedRef} {rest : List FeedRef} {et : Int}
    (ht : top.exchangeTimestamp = et) :
    drainGap (top :: rest) et = drainGap rest (et + interval) := by
  unfold drainGap
  rw [drainCount_cons_expected ht, tick_add_step]

theorem drainGap_cons_stale {top : FeedRef} {rest : List FeedRef} {et : Int}
    (ht : top.exchangeTimestamp < et) : drainGap (top :: rest) et = drainGap rest et := by
  unfold drainGap
  rw [drainCount_cons_stale ht]

theorem drainGap_cons_early {top : FeedRef} {rest : List FeedRef} {et : Int}
    (hsorted : (top :: rest).Pairwise (KeyLE FeedRef.exchangeTimestamp))
    (ht : et < top.exchangeTimestamp) : drainGap (top :: rest) et = et := by
  unfold drainGap
  rw [drainCount_cons_early hsorted ht, tick_zero]

/-- The feeds that the loop pops, top first. -/
def popped (l : List FeedRef) (gap : Int) : List FeedRef :=
  l.filter (fun r => r.exchangeTimestamp ≤ gap)

/-- The feeds that the loop leaves. -/
def left (l : List FeedRef) (gap : Int) : List FeedRef :=
  l.filter (fun r => gap < r.exchangeTimestamp)

theorem popped_cons {top : FeedRef} {rest : List FeedRef} {gap : Int}
    (ht : top.exchangeTimestamp ≤ gap) : popped (top :: rest) gap = top :: popped rest gap := by
  simp [popped, ht]

theorem left_cons {top : FeedRef} {rest : List FeedRef} {gap : Int}
    (ht : top.exchangeTimestamp ≤ gap) : left (top :: rest) gap = left rest gap := by
  simp [left, not_lt.mpr ht]

theorem left_sorted {l : List FeedRef} (hsorted : l.Pairwise (KeyLE FeedRef.exchangeTimestamp))
    (gap : Int) : (left l gap).Pairwise (KeyLE FeedRef.exchangeTimestamp) :=
  hsorted.filter _

theorem drain_early {l : List FeedRef} {gap : Int}
    (h : ∀ r ∈ l, gap < r.exchangeTimestamp) : popped l gap = [] ∧ left l gap = l := by
  constructor
  · apply List.filter_eq_nil_iff.mpr
    intro r hr
    have := h r hr
    simp only [decide_eq_true_eq]
    omega
  · apply List.filter_eq_self.mpr
    intro r hr
    simpa using h r hr

theorem split_cons_stale {top : FeedRef} (rest : List FeedRef) {et : Int}
    (ht : top.exchangeTimestamp < et) :
    popped (top :: rest) (drainGap (top :: rest) et) = top :: popped rest (drainGap rest et) ∧
      left (top :: rest) (drainGap (top :: rest) et) = left rest (drainGap rest et) := by
  have hle : top.exchangeTimestamp ≤ drainGap rest et := by
    have := le_drainGap rest et
    omega
  rw [drainGap_cons_stale ht]
  exact ⟨popped_cons hle, left_cons hle⟩

theorem split_cons_expected {top : FeedRef} (rest : List FeedRef) {et : Int}
    (ht : top.exchangeTimestamp = et) :
    popped (top :: rest) (drainGap (top :: rest) et) =
        top :: popped rest (drainGap rest (et + interval)) ∧
      left (top :: rest) (drainGap (top :: rest) et) =
        left rest (drainGap rest (et + interval)) := by
  have hle : top.exchangeTimestamp ≤ drainGap rest (et + interval) := by
    have h1 := le_drainGap rest (et + interval)
    have h2 := interval_pos
    omega
  rw [drainGap_cons_expected ht]
  exact ⟨popped_cons hle, left_cons hle⟩

/-- An early top is left, and with it all the others. -/
theorem split_cons_early {top : FeedRef} {rest : List FeedRef} {et : Int}
    (hsorted : (top :: rest).Pairwise (KeyLE FeedRef.exchangeTimestamp))
    (ht : et < top.exchangeTimestamp) :
    popped (top :: rest) (drainGap (top :: rest) et) = [] ∧
      left (top :: rest) (drainGap (top :: rest) et) = top :: rest := by
  rw [drainGap_cons_early hsorted ht]
  apply drain_early
  intro r hr
  rcases List.mem_cons.mp hr with rfl | hrest
  · exact ht
  · have := MinQueue.head_le hsorted hrest
    omega

/-- The loop loses no feed. -/
theorem left_append_popped (l : List FeedRef) (gap : Int) :
    (left l gap ++ popped l gap).Perm l := by
  have hpopped : popped l gap = l.filter (fun r => !decide (gap < r.exchangeTimestamp)) := by
    apply List.filter_congr
    intro r _
    by_cases h : gap < r.exchangeTimestamp
    · simp [h, not_le.mpr h]
    · simp [h, not_lt.mp h]
  rw [hpopped]
  exact List.filter_append_perm _ l

/-- `release` for every feed of a list, in order. -/
def releaseAll (l : List FeedRef) (s : ExecState) : Except Fault ExecState :=
  l.foldlM (fun s r => s.release r.addr) s

def pushAll (s : ExecState) (alerts : List Alert) : ExecState :=
  s.setRes {s.self.res with json := s.self.res.json ++ alerts}

theorem pushAll_nil (s : ExecState) : pushAll s [] = s := by
  simp [pushAll, ExecState.setRes]

theorem pushAll_push (s : ExecState) (alert : Alert) (alerts : List Alert) :
    pushAll (s.push alert) alerts = pushAll s (alert :: alerts) := by
  simp [pushAll, ExecState.push, ExecState.setRes, ProRes.push]

/-- `release` commutes with a change that leaves alone what it works on. -/
theorem release_map (g : ExecState → ExecState) (s : ExecState) (x : Nat)
    (hheap : (g s).heap = s.heap) (hmap : (g s).self.sfToM = s.self.sfToM)
    (hput : ∀ heap sfToM,
      {g s with heap := heap, self := {(g s).self with sfToM := sfToM}} =
        g {s with heap := heap, self := {s.self with sfToM := sfToM}}) :
    (g s).release x = (s.release x).map g := by
  unfold ExecState.release
  rw [hmap, hheap]
  cases s.self.sfToM.get? x with
  | none => rfl
  | some m =>
      cases hkill : s.heap.kill m with
      | error f => simp [hkill, Except.map]
      | ok heap => simp [hkill, hput, Except.map]

theorem release_push (s : ExecState) (x : Nat) (alert : Alert) :
    (s.push alert).release x = (s.release x).map (fun t => t.push alert) :=
  release_map (fun t => t.push alert) s x rfl rfl (fun _ _ => rfl)

theorem releaseAll_push (l : List FeedRef) (s : ExecState) (alert : Alert) :
    releaseAll l (s.push alert) = (releaseAll l s).map (fun t => t.push alert) := by
  induction l generalizing s with
  | nil => rfl
  | cons r rest ih =>
      simp only [releaseAll, List.foldlM_cons, release_push]
      cases s.release r.addr with
      | error f => rfl
      | ok t => exact ih t

/-- The stored pair of a context after the loop accepted `n` feeds. -/
def acceptPair (context : Context) (sf : StatisticsFeed) (n : Nat) : Context :=
  if n = 0 ∨ turnoverBelow sf context then context
  else {context with preValue := sf.turnoverValue, preVolume := sf.turnoverVolume}

def loopAlerts (context : Context) (sf : StatisticsFeed) (n : Nat) : List Alert :=
  if turnoverBelow sf context then
    List.replicate n (Tracker.monotonicityAlert sf)
  else []

theorem not_turnoverBelow_self (context : Context) (sf : StatisticsFeed) :
    ¬ turnoverBelow sf {context with preValue := sf.turnoverValue
                                     preVolume := sf.turnoverVolume} := by
  simp [turnoverBelow]

/-- The drain loop, in closed form, for a queue whose popped feeds can be
released. The induction is on the queue, following the loop. -/
theorem drain_closed (sf : FeedRef) (l : List FeedRef)
    (hsorted : l.Pairwise (KeyLE FeedRef.exchangeTimestamp)) (et : Int) (context : Context)
    (s s' : ExecState) (hrelease : releaseAll (popped l (drainGap l et)) s = .ok s') :
    drain sf l hsorted et context s =
      .ok (drainGap l et,
        {acceptPair context sf.feed (drainCount l et) with
          queue := ⟨left l (drainGap l et), left_sorted hsorted _⟩},
        pushAll s' (loopAlerts context sf.feed (drainCount l et))) := by
  induction l generalizing et context s s' with
  | nil =>
      have hgap : drainGap [] et = et := by simp [drainGap, drainCount_nil]
      cases hrelease
      simp [drain_nil, hgap, drainCount_nil, acceptPair, loopAlerts, pushAll_nil, left]
  | cons top rest ih =>
      rcases lt_trichotomy top.exchangeTimestamp et with hlt | heq | hgt
      · -- a stale top is popped and leaves everything else as it is
        have hne : top.exchangeTimestamp ≠ et := by omega
        obtain ⟨hpopped, hleft⟩ := split_cons_stale rest hlt
        rw [hpopped] at hrelease
        obtain ⟨t, ht, hrest⟩ := bind_eq_ok.mp hrelease
        simp only [hleft]
        simp only [drainGap_cons_stale hlt, drainCount_cons_stale hlt]
        simp only [drain_cons, hne, hlt, if_false, if_true, ht, ok_bind]
        exact ih hsorted.of_cons et context t s' hrest
      · -- the expected tick: the arriving feed is checked, then the top is popped
        obtain ⟨hpopped, hleft⟩ := split_cons_expected rest heq
        rw [hpopped] at hrelease
        obtain ⟨t, ht, hrest⟩ := bind_eq_ok.mp hrelease
        simp only [hleft]
        simp only [drainGap_cons_expected heq, drainCount_cons_expected heq]
        by_cases hbelow : turnoverBelow sf.feed context
        · simp only [drain_cons, heq, if_true, hbelow]
          simp only [release_push, ht, Except.map, ok_bind]
          rw [ih hsorted.of_cons (et + interval) context _ _
            ((releaseAll_push _ t _).trans (congrArg (Except.map _) hrest))]
          simp [acceptPair, loopAlerts, hbelow, List.replicate_succ, pushAll_push,
            Tracker.monotonicityAlert]
        · have hself := not_turnoverBelow_self context sf.feed
          simp only [drain_cons, heq, if_true, hbelow, if_false, ht, ok_bind]
          rw [ih hsorted.of_cons (et + interval) _ t s' hrest]
          simp [acceptPair, loopAlerts, hbelow, hself]
      · obtain ⟨hpopped, hleft⟩ := split_cons_early hsorted hgt
        rw [hpopped] at hrelease
        cases hrelease
        have hne : top.exchangeTimestamp ≠ et := by omega
        have hnlt : ¬ top.exchangeTimestamp < et := by omega
        simp only [hleft]
        simp only [drainGap_cons_early hsorted hgt, drainCount_cons_early hsorted hgt]
        simp [drain_cons, hne, hnlt, acceptPair, loopAlerts, pushAll_nil]

theorem drain_released (sf : FeedRef) (l : List FeedRef)
    (hsorted : l.Pairwise (KeyLE FeedRef.exchangeTimestamp)) (et : Int) (context : Context)
    (s : ExecState) {out : Int × Context × ExecState}
    (hdrain : drain sf l hsorted et context s = .ok out) :
    ∃ s', releaseAll (popped l (drainGap l et)) s = .ok s' := by
  induction l generalizing et context s with
  | nil => exact ⟨s, rfl⟩
  | cons top rest ih =>
      rcases lt_trichotomy top.exchangeTimestamp et with hlt | heq | hgt
      · have hne : top.exchangeTimestamp ≠ et := by omega
        simp only [drain_cons, hne, hlt, if_false, if_true] at hdrain
        obtain ⟨t, ht, hrest⟩ := bind_eq_ok.mp hdrain
        obtain ⟨s', hs'⟩ := ih hsorted.of_cons et context t hrest
        rw [(split_cons_stale rest hlt).1]
        exact ⟨s', bind_eq_ok.mpr ⟨t, ht, hs'⟩⟩
      · rw [(split_cons_expected rest heq).1]
        by_cases hbelow : turnoverBelow sf.feed context
        · simp only [drain_cons, heq, if_true, hbelow, release_push] at hdrain
          obtain ⟨_, hpushed, hrest⟩ := bind_eq_ok.mp hdrain
          obtain ⟨t, ht, rfl⟩ := map_eq_ok.mp hpushed
          obtain ⟨_, hs'⟩ := ih hsorted.of_cons (et + interval) context _ hrest
          rw [releaseAll_push] at hs'
          obtain ⟨s', hs', _⟩ := map_eq_ok.mp hs'
          exact ⟨s', bind_eq_ok.mpr ⟨t, ht, hs'⟩⟩
        · simp only [drain_cons, heq, if_true, hbelow, if_false] at hdrain
          obtain ⟨t, ht, hrest⟩ := bind_eq_ok.mp hdrain
          obtain ⟨s', hs'⟩ := ih hsorted.of_cons (et + interval) _ t hrest
          exact ⟨s', bind_eq_ok.mpr ⟨t, ht, hs'⟩⟩
      · rw [(split_cons_early hsorted hgt).1]
        exact ⟨s, rfl⟩

/-- So the closed form is all that a loop can return. -/
theorem drain_eq_ok (sf : FeedRef) (l : List FeedRef)
    (hsorted : l.Pairwise (KeyLE FeedRef.exchangeTimestamp)) (et : Int) (context : Context)
    (s : ExecState) {out : Int × Context × ExecState}
    (hdrain : drain sf l hsorted et context s = .ok out) :
    out.1 = drainGap l et ∧ out.2.1.queue.toList = left l (drainGap l et) := by
  obtain ⟨s', hs'⟩ := drain_released sf l hsorted et context s hdrain
  rw [drain_closed sf l hsorted et context s s' hs'] at hdrain
  cases hdrain
  exact ⟨rfl, rfl⟩

theorem release_mapped {s s' : ExecState} {x : Nat} (h : s.release x = .ok s') :
    (∃ m, s.self.sfToM.get? x = some m) ∧ s'.self.sfToM = s.self.sfToM.erase x ∧
      s'.self.res = s.self.res := by
  unfold ExecState.release at h
  cases hx : s.self.sfToM.get? x with
  | none => simp [hx, throw, throwThe, MonadExceptOf.throw] at h
  | some m =>
      simp only [hx] at h
      obtain ⟨heap, _, hs⟩ := bind_eq_ok.mp h
      cases hs
      exact ⟨⟨m, rfl⟩, rfl, rfl⟩

theorem release_contextMap {s s' : ExecState} {x : Nat} (h : s.release x = .ok s') :
    s'.contextMap = s.contextMap := by
  unfold ExecState.release at h
  cases hx : s.self.sfToM.get? x with
  | none => simp [hx, throw, throwThe, MonadExceptOf.throw] at h
  | some m =>
      simp only [hx] at h
      obtain ⟨heap, _, hs⟩ := bind_eq_ok.mp h
      cases hs
      rfl

/-- Released feeds have all been looked up with success. -/
theorem releaseAll_mapped {l : List FeedRef} {s s' : ExecState}
    (h : releaseAll l s = .ok s') : ∀ r ∈ l, ∃ m, s.self.sfToM.get? r.addr = some m := by
  induction l generalizing s with
  | nil =>
      intro r hr
      cases hr
  | cons top rest ih =>
      obtain ⟨t, ht, hrest⟩ := bind_eq_ok.mp h
      obtain ⟨hmapped, herase, _⟩ := release_mapped ht
      intro r hr
      rcases List.mem_cons.mp hr with rfl | hr
      · exact hmapped
      · obtain ⟨m, hm⟩ := ih hrest r hr
        rw [herase, OrdMap.get?_erase] at hm
        split_ifs at hm
        exact ⟨m, hm⟩

theorem releaseAll_res {l : List FeedRef} {s s' : ExecState} (h : releaseAll l s = .ok s') :
    s'.self.res = s.self.res := by
  induction l generalizing s with
  | nil =>
      cases h
      rfl
  | cons top rest ih =>
      obtain ⟨t, ht, hrest⟩ := bind_eq_ok.mp h
      rw [ih hrest, (release_mapped ht).2.2]

end OLog
