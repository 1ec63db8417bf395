import OLog.Delayed

/-!
Ticks that come back too late. A delay that lets more records overtake than the
queue holds is reported twice: first the tick is missed, and when its record
comes at last it is late. Such records do not disturb the tracker otherwise.
-/

namespace OLog

open Lib Generator

/-- The tick of a 'delay' alert. -/
def Alert.delayTick? : Alert → Option Int
  | .delay _ timestamp _ => some timestamp
  | _ => none

theorem Alert.delayTick?_eq_none {alert : Alert} (h : alert.isDelay = false) :
    alert.delayTick? = none := by
  cases alert <;> first | rfl | cases h

namespace Tracker

section Late

variable (late : StatisticsFeed → Prop) [DecidablePred late]

/-- Late feeds change nothing and give one alert each. -/
theorem track_late {feeds : List StatisticsFeed} (hvalid : ∀ sf ∈ feeds, invalidAlerts sf = [])
    (hlate : ∀ seen sf, seen ++ [sf] <+: feeds → late sf →
      ∃ tracker, (track (seen.filter (fun f => ¬ late f))).1 = some tracker ∧
        sf.exchangeTimestamp < tracker.expectTimestamp)
    (hnone : ∀ alert ∈ (track (feeds.filter (fun f => ¬ late f))).2, alert.isDelay = false) :
    (track feeds).1 = (track (feeds.filter (fun f => ¬ late f))).1 ∧
      (track feeds).2.filter (fun alert => !alert.isDelay) =
        (track (feeds.filter (fun f => ¬ late f))).2 ∧
      (track feeds).2.filterMap Alert.delayTick? =
        (feeds.filter late).map StatisticsFeed.exchangeTimestamp := by
  induction feeds using List.reverseRecOn with
  | nil => exact ⟨rfl, rfl, rfl⟩
  | append_singleton seen sf ih =>
      have hbefore : ∀ alert ∈ (track (seen.filter (fun f => ¬ late f))).2,
          alert.isDelay = false := by
        intro alert halert
        apply hnone alert
        apply (prefix_track _).subset halert
        rw [List.filter_append]
        exact List.prefix_append _ _
      obtain ⟨htracker, halerts, hticks⟩ := ih
        (fun f hf => hvalid f (List.mem_append_left _ hf))
        (fun front f hfront => hlate front f (hfront.trans (List.prefix_append _ _))) hbefore
      rw [track_concat, htracker]
      by_cases hsf : late sf
      · obtain ⟨tracker, htrack, hlt⟩ := hlate seen sf (List.prefix_refl _) hsf
        have hexec : exec (some tracker) sf =
            (tracker, [delayAlert sf tracker.expectTimestamp]) := by
          unfold exec
          rw [Option.getD_some, receive_late hlt, hvalid sf (by simp)]
          rfl
        have hown : (seen ++ [sf]).filter (fun f => ¬ late f) =
            seen.filter (fun f => ¬ late f) := by
          simp [hsf]
        have hlast : (seen ++ [sf]).filter late = seen.filter late ++ [sf] := by
          simp [hsf]
        rw [hown, hlast, htrack, hexec]
        refine ⟨rfl, ?_, ?_⟩
        · rw [List.filter_append, halerts]
          exact List.append_nil _
        · rw [List.filterMap_append, hticks, List.map_append]
          rfl
      · have hown : (seen ++ [sf]).filter (fun f => ¬ late f) =
            seen.filter (fun f => ¬ late f) ++ [sf] := by
          simp [hsf]
        rw [hown, track_concat] at hnone ⊢
        have hnew : ∀ alert ∈ (exec (track (seen.filter (fun f => ¬ late f))).1 sf).2,
            alert.isDelay = false :=
          fun alert halert => hnone alert (List.mem_append_right _ halert)
        refine ⟨rfl, ?_, ?_⟩
        · rw [List.filter_append, halerts]
          congr 1
          apply List.filter_eq_self.mpr
          intro alert halert
          simp [hnew alert halert]
        · have hrest : (exec (track (seen.filter (fun f => ¬ late f))).1 sf).2.filterMap
              Alert.delayTick? = [] := by
            apply List.filterMap_eq_nil_iff.mpr
            exact fun alert halert => Alert.delayTick?_eq_none (hnew alert halert)
          rw [List.filterMap_append, hticks, hrest]
          simp [hsf]

/-- The alert of a late feed stands behind those of the feeds before it. -/
theorem late_reported {feeds : List StatisticsFeed}
    (hvalid : ∀ sf ∈ feeds, invalidAlerts sf = [])
    (hlate : ∀ seen sf, seen ++ [sf] <+: feeds → late sf →
      ∃ tracker, (track (seen.filter (fun f => ¬ late f))).1 = some tracker ∧
        sf.exchangeTimestamp < tracker.expectTimestamp)
    (hnone : ∀ alert ∈ (track (feeds.filter (fun f => ¬ late f))).2, alert.isDelay = false)
    {seen : List StatisticsFeed} {sf : StatisticsFeed} (hseen : seen ++ [sf] <+: feeds)
    (hsf : late sf) :
    ∃ before after expect, (track feeds).2 = before ++ delayAlert sf expect :: after ∧
      (track (seen.filter (fun f => ¬ late f))).2 ⊆ before := by
  have hfront : seen <+: feeds := (List.prefix_append _ _).trans hseen
  obtain ⟨tracker, htrack, hlt⟩ := hlate seen sf hseen hsf
  obtain ⟨hsame, halerts, _⟩ := track_late late
    (fun f hf => hvalid f (hfront.subset hf))
    (fun front f hfirst => hlate front f (hfirst.trans hfront))
    (fun alert halert => hnone alert ((prefix_track (hfront.filter _)).subset halert))
  have hnow : (track (seen ++ [sf])).2 =
      (track seen).2 ++ [delayAlert sf tracker.expectTimestamp] := by
    rw [track_concat, hsame, htrack, exec_alerts_eq, hvalid sf (hseen.subset (by simp)),
      Option.getD_some, receive_late hlt, List.nil_append]
  obtain ⟨after, hafter⟩ := prefix_track hseen
  refine ⟨(track seen).2, after, tracker.expectTimestamp, ?_, ?_⟩
  · rw [← hafter, hnow, List.append_assoc, List.singleton_append]
  · rw [← halerts]
    exact List.filter_sublist.subset

end Late

section Overdue

open Classical

variable {line : DelayLine} {t : Int} {n : Nat} {feeds : List StatisticsFeed}
  (hregular : line.Regular interval t) (hfree : ¬ line.trigger.Fires (t + interval))
  (hticks : feeds.map StatisticsFeed.exchangeTimestamp = line.output (pointsFrom interval t n))

include hregular hfree

/-- The neighbours of a held tick are not held. -/
theorem leftOut_points {P : List StatisticsFeed} {d : Int} (hd : line.trigger.Fires d) {m : Nat}
    (hP : P.map StatisticsFeed.exchangeTimestamp =
      (pointsFrom interval t m).filter (fun x => ¬ line.trigger.Fires x))
    (hlast : d + interval ≤ t + m * interval) : LeftOut P d := by
  have hpos := hregular.step_pos
  obtain ⟨hafter, hdvd⟩ := hregular.of_fires hd
  have hmem : ∀ u, (∃ f ∈ P, f.exchangeTimestamp = u) ↔
      (t < u ∧ u ≤ t + m * interval ∧ interval ∣ u - t) ∧ ¬ line.trigger.Fires u := by
    intro u
    rw [← List.mem_map, hP, List.mem_filter, mem_pointsFrom hpos, decide_eq_true_eq]
  -- the first point is not held, so there is one before
  have hsecond : t + interval < d := by
    have hne : d ≠ t + interval := fun heq => hfree (heq ▸ hd)
    have := Int.le_of_dvd (by omega) hdvd
    omega
  refine ⟨?_, ?_, ?_⟩
  · have hbefore : t < d - interval ∧ d - interval ≤ t + m * interval ∧
        interval ∣ d - interval - t := by
      refine ⟨by omega, by omega, ?_⟩
      have := dvd_sub_self_right.mpr hdvd
      rwa [sub_right_comm] at this
    obtain ⟨f, hf, htick⟩ := (hmem (d - interval)).mpr ⟨hbefore, fun hfires =>
      hregular.not_fires_twice hfires hd (by ring)⟩
    exact ⟨f, hf, by omega⟩
  · have hnext : interval ∣ d + interval - t := by
      have := dvd_add_self_right.mpr hdvd
      rwa [← add_sub_right_comm] at this
    exact (hmem (d + interval)).mpr ⟨⟨by omega, hlast, hnext⟩, fun hfires =>
      hregular.not_fires_twice hd hfires rfl⟩
  · intro f hf heq
    exact ((hmem d).mp ⟨f, hf, heq⟩).2 hd

include hticks

/-- At its release a held tick has been missed. -/
theorem overdue {c K : Nat} (hc : ∀ j k : Int, 0 ≤ k → k < j → j < line.trigger.budget →
    (j - k) * line.trigger.period ≤ line.lag → j - k ≤ c) (hK : line.lag = K * interval)
    (hlong : queueLimit + c < K)
    (hstrides : Strides (feeds.filter (fun f => ¬ line.trigger.Fires f.exchangeTimestamp)))
    {seen : List StatisticsFeed} {sf : StatisticsFeed} (hseen : seen ++ [sf] <+: feeds)
    (hsf : line.trigger.Fires sf.exchangeTimestamp) :
    ∃ tracker,
      (track (seen.filter (fun f => ¬ line.trigger.Fires f.exchangeTimestamp))).1 = some tracker ∧
        sf.exchangeTimestamp < tracker.expectTimestamp ∧ sf.exchangeTimestamp ∈
          missTicks (track (seen.filter (fun f =>
            ¬ line.trigger.Fires f.exchangeTimestamp))).2 := by
  have hpos := hregular.step_pos
  have hfront := prefix_output hticks hseen
  rw [List.map_append, List.map_singleton] at hfront
  obtain ⟨m, hm, hown⟩ := DelayLine.released_front hfront hsf
  have hP : (seen.filter (fun f => ¬ line.trigger.Fires f.exchangeTimestamp)).map
      StatisticsFeed.exchangeTimestamp =
        (pointsFrom interval t (m + 1)).filter (fun x => ¬ line.trigger.Fires x) := by
    rw [← hown, List.filter_map]
    rfl
  have hchain : Strides (seen.filter (fun f => ¬ line.trigger.Fires f.exchangeTimestamp)) := by
    apply List.IsChain.prefix hstrides
    exact ((List.prefix_append seen [sf]).trans hseen).filter _
  have hlast : sf.exchangeTimestamp + interval ≤ t + (m + 1 : Nat) * interval := by
    have hlag : interval ≤ line.lag := by
      rw [hK]
      exact le_mul_of_one_le_left hpos.le (by omega)
    push_cast
    omega
  have hleft := leftOut_points hregular hfree hsf hP hlast
  have hcount : queueLimit < laterThan sf.exchangeTimestamp
      (seen.filter (fun f => ¬ line.trigger.Fires f.exchangeTimestamp)) := by
    have hmany := DelayLine.overtaken_ge hc hregular hsf hK hm
    rw [← hP, List.countP_map] at hmany
    unfold laterThan
    simp only [Function.comp_def] at hmany
    omega
  cases hcases : seen.filter (fun f => ¬ line.trigger.Fires f.exchangeTimestamp) with
  | nil =>
      obtain ⟨f, hf, _⟩ := hleft.before
      rw [hcases] at hf
      cases hf
  | cons first rest =>
      rw [hcases] at hchain hleft hcount
      obtain ⟨tracker, _, htrack, _, _, hkeeps, _⟩ := track_inOrder first hchain
      have hlt := (hkeeps.counted _ hleft).mpr hcount
      exact ⟨tracker, htrack, hlt, (hkeeps.reported _).mpr ⟨hleft, hlt⟩⟩

end Overdue

end Tracker

namespace Generator

def resendTick? : Write → Option Int
  | ⟨.error, .resend timestamp⟩ => some timestamp
  | _ => none

/-- The ticks that the other log reports as resent. -/
def ThreadState.resentTicks (s : ThreadState) : List Int := s.writes.filterMap resendTick?

section Resent

variable {conf : Conf} {line : DelayLine} {s : ThreadState} {d : DelayLine.State}

theorem RecordKind.filterMap_resendTick (kind : RecordKind) {feed : Feed}
    (hprice : feed.priceFeed.exchangeTimestamp = feed.timestamp) (conf : Conf) (time : Int) :
    (kind.write feed conf time).filterMap resendTick? = [] := by
  rw [kind.write_eq hprice]
  split_ifs
  · rcases feed.fault conf kind with _ | mark
    · rfl
    · cases mark <;> rfl
  · rfl

theorem filterMap_resendTick_writes {feed : Feed}
    (hprice : feed.priceFeed.exchangeTimestamp = feed.timestamp) (conf : Conf)
    (time time' : Int) :
    (writeStatisticsFeed feed conf time ++ writePriceFeed feed conf time').filterMap
      resendTick? = [] := by
  rw [List.filterMap_append]
  exact List.append_eq_nil_iff.mpr ⟨RecordKind.statistics.filterMap_resendTick hprice conf time,
    RecordKind.price.filterMap_resendTick hprice conf time'⟩

namespace ThreadState.Simulates

variable (h : s.Simulates conf line d) (hinterval : 0 < conf.delay.interval)

include h hinterval

/-- The notes of one pass name what the line releases. -/
theorem resent (randomLogSet : List String) {nowTime : Int} (inputs : PassInputs)
    (hsends : s.Sends nowTime) :
    (s.passLog conf randomLogSet nowTime inputs).writes.filterMap resendTick? =
      (line.entry d (s.feed.timestamp + 500000000)).resent := by
  have hwaits := h.single.waits.counted hinterval inputs
  rw [(passLog_of_sends s conf randomLogSet nowTime inputs hsends).2, List.filterMap_append,
    filterMap_resendTick_writes (s.next_priceTimestamp conf inputs), List.nil_append,
    DelayLine.entry_resent, resentLines]
  simp only [h.resendsNow_iff inputs, ← h.counted_queue inputs]
  split_ifs with htimer
  · cases hqueue : (s.counted conf inputs).delayQueue with
    | nil => rfl
    | cons delayed rest =>
        have hdelayed := hwaits delayed (by rw [hqueue]; exact List.mem_cons_self)
        have hlines := filterMap_resendTick_writes hdelayed.price conf
          inputs.resendStatisticsTime inputs.resendPriceTime
        have hresend : resendTick? ⟨.error, .resend delayed.timestamp⟩ = some delayed.timestamp :=
          rfl
        simp only [List.take_succ_cons, List.take_zero, List.flatMap_cons, List.flatMap_nil,
          List.append_nil, List.filterMap_cons_some hresend, hlines, List.map_cons]
  · rfl

theorem loopLog_resent (randomLogSet : List String) (endTime : Int) (passes : List PassInputs)
    (nowTime : Int) :
    ((ThreadState.loopLog conf randomLogSet endTime passes nowTime s).flatMap
        PassLog.writes).filterMap resendTick? =
      (line.run (clockTicks endTime (passes.map PassInputs.nowTime) nowTime s.feed.timestamp)
        d).flatMap DelayLine.Entry.resent := by
  induction passes generalizing nowTime s d with
  | nil => rfl
  | cons inputs rest ih =>
      simp only [ThreadState.loopLog, List.map_cons, clockTicks]
      split_ifs with htime hsends
      · have hsent : s.Sends nowTime := hsends
        have hnext := ih (h.pass hinterval hsent randomLogSet inputs) inputs.nowTime
        rw [(pass_feed s conf randomLogSet nowTime inputs hsent).1] at hnext
        rw [List.flatMap_cons, List.filterMap_append, hnext, h.resent hinterval _ inputs hsent,
          DelayLine.run, List.flatMap_cons]
      · have hidle : ¬ s.Sends nowTime := hsends
        have hnext := ih (h.pass_idle .statistics hidle randomLogSet inputs).1 inputs.nowTime
        have hnothing : (s.passLog conf randomLogSet nowTime inputs).writes.filterMap
            resendTick? = [] := by
          apply List.filterMap_eq_nil_iff.mpr
          intro write hwrite
          obtain ⟨timestamp, message, rfl⟩ :=
            (passLog_of_not_sends s conf randomLogSet nowTime inputs hidle).2 write hwrite
          rfl
        rw [List.flatMap_cons, List.filterMap_append, hnothing, List.nil_append, hnext,
          pass_of_not_sends s conf randomLogSet nowTime inputs hidle]
      · rfl

end ThreadState.Simulates

end Resent

section Thread

variable {conf : Conf} {i : Nat} (words : String → List Sample) {inputs : ThreadInputs}
  (honly : OnlyIn conf i .delay) (hinterval : 0 < conf.delay.interval)

include honly hinterval

/-- The delayed ticks are noted, each of them once. -/
theorem markedTicks_delay (hunit : inputs.Unit) (henabled : RecordKind.statistics.Enabled conf) :
    (thread conf words i inputs).markedTicks .delay .statistics =
      faultyTicks conf .delay (sentFeeds (threadLog conf words i inputs)) := by
  have hsent := (threadLog_succeeds conf words i hunit).2
  have hsingle : (threadStart conf i inputs).Single conf .delay :=
    ⟨honly, fun _ hdelayed => nomatch hdelayed⟩
  have hmarked := ThreadState.filterMap_loopLog (f := markedTick? .delay .statistics)
    (I := ThreadState.Single conf .delay) (fun _ _ => rfl)
    (fun _ time time' hprice => Feed.marked_writes conf .statistics hprice .delay time time')
    (fun s nowTime inputs h => h.pass hinterval (generateRandomData words) nowTime inputs)
    ?_ hsingle
    (inputs.nowTime + conf.timeLength * 1000) inputs.passes inputs.nowTime
  · unfold ThreadState.markedTicks faultyTicks
    rw [thread_writes, ← flatMap_ite]
    refine hmarked.trans (List.flatMap_congr ?_)
    intro feed hfeed
    have honlyFeed : ∀ other, feed.Faulty conf other → other = .delay :=
      fun other hfaulty => (honly other).mp ((hsent feed hfeed).id ▸ hfaulty.1)
    have hfault := Feed.fault_eq_some_iff .statistics honlyFeed
    simp [hfault, henabled, RecordKind.marks]
  · intro s inputs h
    rcases h.resent_lines hinterval inputs with hnothing | ⟨delayed, _, hlines⟩
    · rw [hnothing]
      rfl
    · rw [hlines]
      apply List.filterMap_eq_nil_iff.mpr
      intro write hwrite
      rcases List.mem_cons.mp hwrite with rfl | hwrite
      · rfl
      · rcases List.mem_append.mp hwrite with hline | hline
        · rw [RecordKind.mem_lines_none _ hline]
          rfl
        · rw [RecordKind.mem_lines_none _ hline]
          rfl

open Classical

variable (hamount : 0 < conf.delay.amount) (hlength : 0 < conf.delayTimeLength)
  (hclock : inputs.init.timestamp ≤ inputs.nowTime) {line : DelayLine}
  (hline : line = conf.delayLine inputs.nowTime hinterval hamount hlength)

include hclock hline

/-- The ticks noted as resent are those that the delay line releases. -/
theorem resentTicks_thread : (thread conf words i inputs).resentTicks =
    (line.output (threadTicks conf inputs)).filter (fun x => line.trigger.Fires x) := by
  subst hline
  have hregular := delayLine_regular hinterval hamount hlength hclock
  have hsimulates := threadStart_simulates inputs hinterval hamount hlength honly
  have hresent : (thread conf words i inputs).resentTicks = _ :=
    (congrArg (List.filterMap resendTick?) (thread_writes conf words i inputs)).trans
      (hsimulates.loopLog_resent hinterval _ _ _ _)
  obtain ⟨n, hn⟩ := threadTicks_eq conf inputs
  change _ = (DelayLine.run _ (threadTicks conf inputs) _).flatMap _ at hresent
  rw [hresent, hn, DelayLine.run_eq hregular.step_pos hregular.grid
    (DelayLine.timers_onGrid hregular.grid hregular.lag) (DelayLine.start_inv hregular.ahead),
    List.flatMap_map, DelayLine.output_held]

/-- A feed is delayed exactly if the line holds its tick. -/
theorem faulty_iff_fires {feed : Feed} (hfeed : feed ∈ sentFeeds (threadLog conf words i inputs)) :
    feed.Faulty conf .delay ↔ line.trigger.Fires feed.timestamp := by
  subst hline
  have hregular := delayLine_regular hinterval hamount hlength hclock
  rw [threadLog_faulty_iff words inputs .delay hinterval hamount ((honly .delay).mpr rfl) feed
    hfeed]
  exact and_iff_right hregular.ahead

end Thread

end Generator

theorem eq_of_map_eq {α β : Type} {f : α → β} {l₁ l₂ : List α} (h : l₁.map f = l₂.map f)
    (hinj : ∀ x ∈ l₁, ∀ y ∈ l₂, f x = f y → x = y) : l₁ = l₂ := by
  induction l₁ generalizing l₂ with
  | nil => exact (List.map_eq_nil_iff.mp h.symm).symm
  | cons x l₁ ih =>
      cases l₂ with
      | nil => cases h
      | cons y l₂ =>
          obtain ⟨hhead, htail⟩ := List.cons.inj h
          rw [hinj x List.mem_cons_self y List.mem_cons_self hhead, ih htail (fun a ha b hb =>
            hinj a (List.mem_cons_of_mem _ ha) b (List.mem_cons_of_mem _ hb))]

section Delayed

open Classical

variable {conf : Conf} {i : Nat} (words : String → List Sample) {inputs : ThreadInputs}
  (hunit : inputs.Unit) (honly : OnlyIn conf i .delay) (hinterval : 0 < conf.delay.interval)
  (hamount : 0 < conf.delay.amount) (hlength : 0 < conf.delayTimeLength)
  (hclock : inputs.init.timestamp ≤ inputs.nowTime)
  (henabled : RecordKind.statistics.Enabled conf) {line : DelayLine}
  (hline : line = conf.delayLine inputs.nowTime hinterval hamount hlength)

include hunit honly hclock henabled hline

/-- Without the late ones, the feeds in the log are those of the ticks that were
not delayed. -/
theorem statistics_kept :
    (statisticsAmong (feedcodeOf conf i) (thread conf words i inputs).writtenFeeds).filter
        (fun sf => ¬ line.trigger.Fires sf.exchangeTimestamp) =
      keptReports conf .delay (sentFeeds (threadLog conf words i inputs)) := by
  have hchain := (threadLog_succeeds conf words i hunit).1
  have hkept : kept conf .delay (sentFeeds (threadLog conf words i inputs)) =
      (sentFeeds (threadLog conf words i inputs)).filter (fun feed =>
        ¬ line.trigger.Fires feed.timestamp) := by
    apply List.filter_congr
    intro feed hfeed
    simp only [faulty_iff_fires words honly hinterval hamount hlength hclock hline hfeed]
  apply eq_of_map_eq (f := StatisticsFeed.exchangeTimestamp)
  · have hticks := written_output words hinterval hamount hlength hclock honly henabled
    rw [← hline] at hticks
    calc
      _ = ((statisticsAmong (feedcodeOf conf i) (thread conf words i inputs).writtenFeeds).map
            StatisticsFeed.exchangeTimestamp).filter (fun x => ¬ line.trigger.Fires x) := by
        rw [List.filter_map]
        rfl
      _ = (threadTicks conf inputs).filter (fun x => ¬ line.trigger.Fires x) := by
        rw [hticks, DelayLine.output_free]
      _ = (kept conf .delay (sentFeeds (threadLog conf words i inputs))).map
            Generator.Feed.timestamp := by
        rw [← threadLog_ticks conf words i, List.filter_map, hkept]
        rfl
      _ = _ := by
        rw [keptReports, List.map_map]
        exact List.map_congr_left (fun feed _ => (statisticsReport_timestamp conf feed).symm)
  · intro f hf g hg heq
    obtain ⟨feed, hfeed, rfl⟩ := statistics_sent honly words hunit (List.mem_of_mem_filter hf)
    obtain ⟨other, hother, _, rfl⟩ := mem_keptReports.mp hg
    rw [statisticsReport_timestamp, statisticsReport_timestamp] at heq
    rw [eq_of_timestamp hchain hfeed hother heq]

/-- A record is late exactly if the other log says that its tick was delayed. -/
theorem fires_iff_marked {sf : StatisticsFeed} (hsf : sf ∈ statisticsAmong (feedcodeOf conf i)
    (thread conf words i inputs).writtenFeeds) :
    line.trigger.Fires sf.exchangeTimestamp ↔
      sf.exchangeTimestamp ∈ (thread conf words i inputs).markedTicks .delay .statistics := by
  have hfaulty {feed : Generator.Feed}
      (hfeed : feed ∈ sentFeeds (threadLog conf words i inputs)) :=
    faulty_iff_fires words honly hinterval hamount hlength hclock hline hfeed
  rw [markedTicks_delay words honly hinterval hunit henabled, faultyTicks, List.mem_map]
  obtain ⟨feed, hfeed, rfl⟩ := statistics_sent honly words hunit hsf
  rw [statisticsReport_timestamp]
  constructor
  · intro hfires
    have hmem : feed ∈ (sentFeeds (threadLog conf words i inputs)).filter
        (fun feed => feed.Faulty conf .delay) :=
      List.mem_filter.mpr ⟨hfeed, decide_eq_true ((hfaulty hfeed).mpr hfires)⟩
    exact ⟨feed, hmem, rfl⟩
  · rintro ⟨other, hother, heq⟩
    obtain ⟨hmem, hdelayed⟩ := List.mem_filter.mp hother
    rw [← heq]
    exact (hfaulty hmem).mp (of_decide_eq_true hdelayed)

end Delayed

/-- How many ticks can be delayed between a delayed tick and its resending. -/
theorem delayLine_few {conf : Conf} (nowTime : Int) (hinterval : 0 < conf.delay.interval)
    (hamount : 0 < conf.delay.amount) (hlength : 0 < conf.delayTimeLength) {j k : Int}
    (hk : 0 ≤ k) (hj : j < conf.delay.amount)
    (h : (j - k) * (conf.delayLine nowTime hinterval hamount hlength).trigger.period ≤
      (conf.delayLine nowTime hinterval hamount hlength).lag) :
    j - k ≤ min (conf.delay.amount - 1) (conf.delayTimeLength / conf.delay.interval) := by
  apply le_min
  · omega
  · change (j - k) * (conf.delay.interval * 1000000000) ≤ conf.delayTimeLength * 1000000000 at h
    rw [← mul_assoc] at h
    exact (Int.le_ediv_iff_mul_le hinterval).mpr (by omega)

/-- The feeds of the ticks that were not delayed. -/
def prompt (s : ThreadState) (feeds : List StatisticsFeed) : List StatisticsFeed :=
  feeds.filter (fun sf => sf.exchangeTimestamp ∉ s.markedTicks .delay .statistics)

section Delayed

variable {conf : Conf} {i : Nat} (words : String → List Sample) {inputs : ThreadInputs}
  (hunit : inputs.Unit) (honly : OnlyIn conf i .delay) (hinterval : 0 < conf.delay.interval)
  (hamount : 0 < conf.delay.amount) (hlength : 0 < conf.delayTimeLength)
  (hclock : inputs.init.timestamp ≤ inputs.nowTime)
  (henabled : RecordKind.statistics.Enabled conf) {feeds : List StatisticsFeed}
  (hfeeds : feeds = statisticsAmong (feedcodeOf conf i) (thread conf words i inputs).writtenFeeds)

include hunit honly hclock henabled hfeeds

section Line

open Classical

variable {line : DelayLine}
  (hline : line = conf.delayLine inputs.nowTime hinterval hamount hlength)

include hline

theorem prompt_eq : prompt (thread conf words i inputs) feeds =
    feeds.filter (fun sf => ¬ line.trigger.Fires sf.exchangeTimestamp) := by
  apply List.filter_congr
  intro sf hsf
  simp only [fires_iff_marked words hunit honly hinterval hamount hlength hclock henabled hline
    (hfeeds ▸ hsf)]

omit hunit in
/-- The late records are those of the ticks noted as resent. -/
theorem late_ticks : (feeds.filter (fun sf => line.trigger.Fires sf.exchangeTimestamp)).map
    StatisticsFeed.exchangeTimestamp = (thread conf words i inputs).resentTicks := by
  have hticks := written_output words hinterval hamount hlength hclock honly henabled
  rw [← hline, ← hfeeds] at hticks
  rw [resentTicks_thread words honly hinterval hamount hlength hclock hline, ← hticks,
    List.filter_map]
  rfl

/-- The tracker has missed the tick of a late record. -/
theorem overdue_thread
    (hlong : 120 + min (conf.delay.amount - 1) (conf.delayTimeLength / conf.delay.interval) <
      2 * conf.delayTimeLength)
    {seen : List StatisticsFeed} {sf : StatisticsFeed} (hseen : seen ++ [sf] <+: feeds)
    (hsf : line.trigger.Fires sf.exchangeTimestamp) :
    ∃ tracker, (Tracker.track (seen.filter (fun f =>
        ¬ line.trigger.Fires f.exchangeTimestamp))).1 = some tracker ∧
      sf.exchangeTimestamp < tracker.expectTimestamp ∧ sf.exchangeTimestamp ∈
        Tracker.missTicks (Tracker.track (seen.filter (fun f =>
          ¬ line.trigger.Fires f.exchangeTimestamp))).2 := by
  have hown := statistics_kept words hunit honly hinterval hamount hlength hclock henabled hline
  rw [← hfeeds] at hown
  have hstrides : Tracker.Strides (feeds.filter (fun f =>
      ¬ line.trigger.Fires f.exchangeTimestamp)) := by
    rw [hown]
    exact strides_keptReports .delay (threadLog_succeeds conf words i hunit).1
  subst hline hfeeds
  obtain ⟨n, hn⟩ := threadTicks_eq conf inputs
  have hticks := written_output words hinterval hamount hlength hclock honly henabled
  rw [hn] at hticks
  have hfew : 0 ≤ min (conf.delay.amount - 1) (conf.delayTimeLength / conf.delay.interval) :=
    le_min (by omega) (Int.ediv_nonneg hlength.le hinterval.le)
  obtain ⟨c, hc⟩ := Int.eq_ofNat_of_zero_le hfew
  obtain ⟨K, hK⟩ := Int.eq_ofNat_of_zero_le (show 0 ≤ 2 * conf.delayTimeLength by omega)
  refine Tracker.overdue (delayLine_regular hinterval hamount hlength hclock)
    (delayLine_free hinterval hamount hlength hclock) hticks (K := K) (c := c) ?_ ?_ ?_ hstrides
    hseen hsf
  · intro j k hk _ hj hwithin
    rw [← hc]
    exact delayLine_few inputs.nowTime hinterval hamount hlength hk hj hwithin
  · change conf.delayTimeLength * 1000000000 = K * 500000000
    omega
  · have : queueLimit = 120 := rfl
    omega

end Line

include hinterval hamount hlength in
/-- All that the tracker has to say about ticks that come much too late. -/
theorem track_overdue
    (hlong : 120 + min (conf.delay.amount - 1) (conf.delayTimeLength / conf.delay.interval) <
      2 * conf.delayTimeLength) :
    (Tracker.track feeds).2.filter (fun alert => !alert.isDelay) =
        (((thread conf words i inputs).markedTicks .delay .statistics).filter (fun t =>
          Noticed (prompt (thread conf words i inputs) feeds) t)).map
            (Alert.miss (feedcodeOf conf i)) ∧
      (Tracker.track feeds).2.filterMap Alert.delayTick? =
        (thread conf words i inputs).resentTicks ∧
      ∀ t ∈ (thread conf words i inputs).resentTicks, ∃ before after seconds,
        (Tracker.track feeds).2 = before ++ .delay (feedcodeOf conf i) t seconds :: after ∧
          .miss (feedcodeOf conf i) t ∈ before := by
  classical
  obtain ⟨line, hline⟩ : ∃ line, line = conf.delayLine inputs.nowTime hinterval hamount hlength :=
    ⟨_, rfl⟩
  obtain ⟨hchain, hsent⟩ := threadLog_succeeds conf words i hunit
  have hown := statistics_kept words hunit honly hinterval hamount hlength hclock henabled hline
  rw [← hfeeds] at hown
  have hmisses := track_keptReports .delay hchain hsent (fun feed hfeed =>
    (honly.spared (by decide) : Spared conf i .errorTurnover).not_faulty (hsent feed hfeed).id)
  rw [← markedTicks_delay words honly hinterval hunit henabled, ← hown] at hmisses
  have hvalid : ∀ sf ∈ feeds, Tracker.invalidAlerts sf = [] := by
    rw [hfeeds]
    exact statistics_valid words hunit honly
  have hnone : ∀ alert ∈ (Tracker.track (feeds.filter (fun sf =>
      ¬ line.trigger.Fires sf.exchangeTimestamp))).2, alert.isDelay = false := by
    rw [hmisses]
    intro alert halert
    obtain ⟨_, _, rfl⟩ := List.mem_map.mp halert
    rfl
  have hoverdue {seen : List StatisticsFeed} {sf : StatisticsFeed}
      (hseen : seen ++ [sf] <+: feeds) (hsf : line.trigger.Fires sf.exchangeTimestamp) :=
    overdue_thread words hunit honly hinterval hamount hlength hclock henabled hfeeds hline hlong
      hseen hsf
  have hlate : ∀ seen sf, seen ++ [sf] <+: feeds → line.trigger.Fires sf.exchangeTimestamp →
      ∃ tracker, (Tracker.track (seen.filter (fun f =>
        ¬ line.trigger.Fires f.exchangeTimestamp))).1 = some tracker ∧
          sf.exchangeTimestamp < tracker.expectTimestamp := by
    intro seen sf hseen hsf
    obtain ⟨tracker, htrack, hlt, _⟩ := hoverdue hseen hsf
    exact ⟨tracker, htrack, hlt⟩
  have hresent := late_ticks words honly hinterval hamount hlength hclock henabled hfeeds
    hline
  obtain ⟨_, halerts, hticks⟩ := Tracker.track_late
    (fun sf => line.trigger.Fires sf.exchangeTimestamp) hvalid hlate hnone
  refine ⟨?_, hticks.trans hresent, ?_⟩
  · rw [halerts, hmisses,
      prompt_eq words hunit honly hinterval hamount hlength hclock henabled hfeeds hline]
  · intro t ht
    rw [← hresent, List.mem_map] at ht
    obtain ⟨sf, hsf, rfl⟩ := ht
    obtain ⟨hmem, hfires⟩ := List.mem_filter.mp hsf
    obtain ⟨seen, rest, hsplit⟩ := List.append_of_mem hmem
    have hseen : seen ++ [sf] <+: feeds := ⟨rest, by simp [hsplit]⟩
    have hfires := of_decide_eq_true hfires
    obtain ⟨_, _, _, hmissed⟩ := hoverdue hseen hfires
    obtain ⟨before, after, expect, heq, hsub⟩ := Tracker.late_reported
      (fun sf => line.trigger.Fires sf.exchangeTimestamp) hvalid hlate hnone hseen hfires
    have hcode : sf.feedcode = feedcodeOf conf i := by
      obtain ⟨feed, hfeed, rfl⟩ := statistics_sent honly words hunit (hfeeds ▸ hmem)
      exact statisticsReport_feedcode conf (hsent feed hfeed)
    rw [Tracker.delayAlert, hcode] at heq
    refine ⟨before, after, _, heq, ?_⟩
    -- the missed tick was reported under the same feedcode
    obtain ⟨alert, halert, htick⟩ := List.mem_filterMap.mp hmissed
    have hfront := ((List.prefix_append seen [sf]).trans hseen).filter
      (fun f => ¬ line.trigger.Fires f.exchangeTimestamp)
    have hmiss := (Tracker.prefix_track hfront).subset halert
    rw [hmisses] at hmiss
    obtain ⟨u, _, rfl⟩ := List.mem_map.mp hmiss
    cases htick
    exact hsub halert

end Delayed

section Observed

variable {Value : Type} {reader : JsonReader Value} {beyond : Nat → Char} {conf : Conf}
  {words : String → List Sample} {inputs : Nat → ThreadInputs} {deliveries : List Delivery}
  {l : EventLoop}

/-- Records that are delayed for so long that more than 120 others overtake them
are reported: each delayed tick that can be noticed is missed, and each one that
is resent is first missed and then late. Nothing else is said. -/
theorem delayed_ticks_reported (h : Observed reader beyond conf words inputs deliveries l)
    {i : Nat} (hi : i < conf.instrumentAmount) (honly : OnlyIn conf i .delay)
    (hinterval : 0 < conf.delay.interval) (hamount : 0 < conf.delay.amount)
    (hlength : 0 < conf.delayTimeLength) (henabled : RecordKind.statistics.Enabled conf)
    (hlong : 120 + min (conf.delay.amount - 1) (conf.delayTimeLength / conf.delay.interval) <
      2 * conf.delayTimeLength)
    (hclock : (inputs i).init.timestamp ≤ (inputs i).nowTime) :
    (l.produced.filter (Alert.follows (feedcodeOf conf i))).filter (fun alert => !alert.isDelay) =
        (((thread conf words i (inputs i)).markedTicks .delay .statistics).filter (fun t =>
          Noticed (prompt (thread conf words i (inputs i))
            (statisticsAmong (feedcodeOf conf i) (arrivedFeeds deliveries))) t)).map
              (Alert.miss (feedcodeOf conf i)) ∧
      (l.produced.filter (Alert.follows (feedcodeOf conf i))).filterMap Alert.delayTick? =
        (thread conf words i (inputs i)).resentTicks ∧
      ∀ t ∈ (thread conf words i (inputs i)).resentTicks, ∃ before after seconds,
        l.produced.filter (Alert.follows (feedcodeOf conf i)) =
            before ++ .delay (feedcodeOf conf i) t seconds :: after ∧
          .miss (feedcodeOf conf i) t ∈ before := by
  have hoverdue := track_overdue words (h.unit i hi) honly hinterval hamount hlength hclock
    henabled (h.statistics hi) hlong
  rw [h.follows_eq hi, ← h.statistics hi]
  · exact hoverdue
  · -- misses and delays are warnings
    rw [← h.statistics hi]
    intro alert halert
    cases hdelay : alert.isDelay with
    | true => cases alert <;> first | rfl | cases hdelay
    | false =>
        have hmem : alert ∈ List.filter (fun alert => !alert.isDelay) _ :=
          List.mem_filter.mpr ⟨halert, by simp [hdelay]⟩
        rw [hoverdue.1] at hmem
        obtain ⟨_, _, rfl⟩ := List.mem_map.mp hmem
        rfl

/-- A tick is delayed by more than a minute. -/
def longDelayConf : Conf := {steadyConf with delay := ⟨1000, 1, 1, 2⟩, delayTimeLength := 62}

theorem longDelayConf_onlyIn : OnlyIn longDelayConf 0 .delay := by
  intro other
  cases other <;> decide

theorem delayed_ticks_reported_steady :
    ∃ deliveries l, Observed textReader (fun _ => ' ') longDelayConf (fun _ => [])
        (fun _ => steadyInputs 130) deliveries l ∧
      ∃ before after seconds, l.produced.filter (Alert.follows "rb1000") =
          before ++ .delay "rb1000" 1600000002000000000 seconds :: after ∧
        .miss "rb1000" 1600000002000000000 ∈ before := by
  obtain ⟨deliveries, l, h⟩ := exists_observed_single longDelayConf (fun _ => []) rfl
    (steadyInputs_unit 130) (steadyInputs_timely (by decide)) (fun _ => ' ')
  obtain ⟨-, -, hlate⟩ := delayed_ticks_reported h Nat.one_pos longDelayConf_onlyIn (by decide)
    (by decide) (by decide) (by decide) (by decide) (by decide)
  have hcode : feedcodeOf longDelayConf 0 = "rb1000" := by decide +kernel
  have hresent : 1600000002000000000 ∈
      (thread longDelayConf (fun _ => []) 0 (steadyInputs 130)).resentTicks := by
    decide +kernel
  rw [hcode] at hlate
  exact ⟨deliveries, l, h, hlate _ hresent⟩

end Observed

end OLog
